import Mathlib.Algebra.Order.Ring.Int
import Mathlib.Data.List.Basic

/-!
# Operator precedence parsing (`pratt.lua`)

The parser reads an operand and then goes on as long as the next operator binds stronger than
what is before the operand.  What it reads is the one tree with these tokens in which every
operand ends where its operators say it does: the parser is the inverse of writing such trees.

The tokens that are left stand for the index into the list of tokens.  After the last of them
`next` and `peek` return nil.
-/

namespace LuaAttic.Pratt

/-- The nested tables that the parser builds; an operand is missing after the last token. -/
inductive Ast
  | operand (s : Option String)
  | unary (t : Ast)
  | binary (op : String) (lhs rhs : Ast)
  deriving DecidableEq

/-- `op` -/
def op : String → Option ℤ
  | "+" => some 10
  | "*" => some 20
  | "^" => some 30
  | _ => none

/-- `ra` -/
def ra : String → ℤ
  | "^" => 1
  | _ => 0

/-- `bp` -/
def bp (s : Option String) : ℤ := (s.bind op).getD (-1)

/-- How strong an operator binds its right operand. -/
def rbp (s : String) : ℕ := (bp (some s) - ra s).toNat

/-- A tree and the tokens that are left. -/
abbrev Parsed (n : ℕ) := {r : Ast × List String // r.2.length ≤ n}

mutual

/-- `expr(rbp)` -/
def expr (r : ℕ) (tokens : List String) : Parsed tokens.length :=
  let ⟨(lhs, rest), h⟩ := prefixed tokens
  let ⟨parsed, h'⟩ := going r lhs rest
  ⟨parsed, h'.trans h⟩
termination_by 3 * tokens.length + 2
decreasing_by
  · omega
  · change rest.length ≤ tokens.length at h
    omega

/-- `prefix(next())` -/
def prefixed (tokens : List String) : Parsed tokens.length :=
  match tokens with
  | [] => ⟨(.operand none, []), le_rfl⟩
  | s :: rest =>
      if s = "-" then
        let ⟨(t, rest'), h⟩ := expr 0 rest
        ⟨(.unary t, rest'), Nat.le_succ_of_le h⟩
      else ⟨(.operand (some s), rest), Nat.le_succ _⟩
termination_by 3 * tokens.length + 1

/-- The loop of `expr`, with `infix(lhs, next())`. -/
def going (r : ℕ) (lhs : Ast) (tokens : List String) : Parsed tokens.length :=
  match tokens with
  | [] => ⟨(lhs, []), le_rfl⟩
  | s :: rest =>
      if bp (some s) > r then
        let ⟨(rhs, rest'), h⟩ := expr (rbp s) rest
        let ⟨parsed, h'⟩ := going r (.binary s lhs rhs) rest'
        ⟨parsed, Nat.le_succ_of_le (h'.trans h)⟩
      else ⟨(lhs, s :: rest), le_rfl⟩
termination_by 3 * tokens.length
decreasing_by
  · rw [List.length_cons]
    omega
  · change rest'.length ≤ rest.length at h
    rw [List.length_cons]
    omega

end

/-! ## Trees as they are written -/

namespace Ast

/-- The tokens of a tree. -/
def tokens : Ast → List String
  | operand s => s.toList
  | unary t => "-" :: t.tokens
  | binary s lhs rhs => lhs.tokens ++ s :: rhs.tokens

/-- The operators before which nothing but their left operands is read. -/
def leftEdge : Ast → List String
  | operand _ => []
  | unary _ => []
  | binary s lhs _ => s :: lhs.leftEdge

/-- How strong the operators bind whose right operands end where the tree does. -/
def rightEdge : Ast → List ℕ
  | operand _ => []
  | unary t => 0 :: t.rightEdge
  | binary s _ rhs => rbp s :: rhs.rightEdge

/-- The last operand is missing. -/
def Open : Ast → Prop
  | operand s => s = none
  | unary t => t.Open
  | binary _ _ rhs => rhs.Open

/-- The operand `t` starts after something that binds it as strong as `r`. -/
def StartsAfter (r : ℕ) (t : Ast) : Prop := ∀ s ∈ t.leftEdge, (r : ℤ) < bp (some s)

/-- The operands that end with `t` end before the tokens. -/
def EndsBefore (t : Ast) (rest : List String) : Prop :=
  (∀ r ∈ t.rightEdge, bp rest.head? ≤ r) ∧ (t.Open → rest = [])

/-- All operands start and end where their operators say. -/
def Nested : Ast → Prop
  | operand s => s ≠ some "-"
  | unary t => t.Nested ∧ t.StartsAfter 0
  | binary s lhs rhs =>
      lhs.Nested ∧ rhs.Nested ∧ lhs.EndsBefore (s :: rhs.tokens) ∧ rhs.StartsAfter (rbp s)

variable {t lhs rhs : Ast} {s : String} {r : ℕ} {rest : List String}

theorem startsAfter_binary : (binary s lhs rhs).StartsAfter r ↔
    (r : ℤ) < bp (some s) ∧ lhs.StartsAfter r := List.forall_mem_cons

theorem endsBefore_unary : (unary t).EndsBefore rest ↔
    bp rest.head? ≤ (0 : ℕ) ∧ t.EndsBefore rest := by
  rw [EndsBefore, EndsBefore, rightEdge, List.forall_mem_cons, and_assoc]
  rfl

theorem endsBefore_binary : (binary s lhs rhs).EndsBefore rest ↔
    bp rest.head? ≤ rbp s ∧ rhs.EndsBefore rest := by
  rw [EndsBefore, EndsBefore, rightEdge, List.forall_mem_cons, and_assoc]
  rfl

/-- Only the first of the tokens matters. -/
theorem endsBefore_cons (rest' : List String) :
    t.EndsBefore (s :: rest) ↔ t.EndsBefore (s :: rest') :=
  and_congr Iff.rfl (imp_congr_right fun _ => iff_of_false nofun nofun)

end Ast

open Ast

/-! ## What is read -/

theorem expr_eq (r : ℕ) (tokens : List String) :
    (expr r tokens).1 = (going r (prefixed tokens).1.1 (prefixed tokens).1.2).1 := by
  rw [expr]

theorem prefixed_unary (rest : List String) :
    (prefixed ("-" :: rest)).1 = (.unary (expr 0 rest).1.1, (expr 0 rest).1.2) := by
  rw [prefixed, if_pos rfl]

theorem prefixed_operand {s : String} (hs : s ≠ "-") (rest : List String) :
    (prefixed (s :: rest)).1 = (.operand (some s), rest) := by
  rw [prefixed, if_neg hs]

theorem going_stop {r : ℕ} (lhs : Ast) {rest : List String} (h : bp rest.head? ≤ r) :
    (going r lhs rest).1 = (lhs, rest) := by
  cases rest with
  | nil => rw [going]
  | cons s rest =>
      have hs : ¬ bp (some s) > r := not_lt.mpr h
      rw [going, if_neg hs]

theorem going_binary {r : ℕ} (lhs : Ast) {s : String} {rest : List String}
    (h : (r : ℤ) < bp (some s)) :
    (going r lhs (s :: rest)).1 =
      (going r (.binary s lhs (expr (rbp s) rest).1.1) (expr (rbp s) rest).1.2).1 := by
  rw [going, if_pos h]

/-- The parser reads the tokens of a tree as that tree, and then goes on. -/
theorem expr_tokens {t : Ast} (ht : t.Nested) {r : ℕ} (hr : t.StartsAfter r)
    {rest : List String} (hrest : t.EndsBefore rest) :
    (expr r (t.tokens ++ rest)).1 = (going r t rest).1 := by
  induction t generalizing r rest with
  | operand s =>
      cases s with
      | none =>
          obtain rfl := hrest.2 rfl
          rw [expr_eq, tokens, Option.toList_none, List.nil_append, prefixed]
      | some s =>
          have hs : s ≠ "-" := fun h => ht (congrArg some h)
          rw [expr_eq, tokens, Option.toList_some, List.singleton_append, prefixed_operand hs]
  | unary t ih =>
      rw [endsBefore_unary] at hrest
      have hread : (expr 0 (t.tokens ++ rest)).1 = (t, rest) :=
        (ih ht.1 ht.2 hrest.2).trans (going_stop t hrest.1)
      rw [expr_eq, tokens, List.cons_append, prefixed_unary, hread]
  | binary s lhs rhs ihl ihr =>
      obtain ⟨hl, hrhs, hends, hstarts⟩ := ht
      rw [startsAfter_binary] at hr
      rw [endsBefore_binary] at hrest
      have hread : (expr (rbp s) (rhs.tokens ++ rest)).1 = (rhs, rest) :=
        (ihr hrhs hstarts hrest.2).trans (going_stop rhs hrest.1)
      rw [tokens, List.append_assoc, List.cons_append,
        ihl hl hr.2 ((endsBefore_cons _).mp hends), going_binary lhs hr.1, hread]

/-- What an expression and the loop have read at the end. -/
structure Reads (r : ℕ) (tokens : List String) (t : Ast) (rest : List String) : Prop where
  tokens_eq : t.tokens ++ rest = tokens
  nested : t.Nested
  startsAfter : t.StartsAfter r
  endsBefore : t.EndsBefore rest
  le : bp rest.head? ≤ r

theorem bp_le_of_nil (r : ℕ) : bp ([] : List String).head? ≤ r := by
  change (-1 : ℤ) ≤ r
  omega

/-- What is read is a tree whose operands are where their operators say. -/
theorem reads (n : ℕ) :
    (∀ r tokens, tokens.length ≤ n →
        Reads r tokens (expr r tokens).1.1 (expr r tokens).1.2) ∧
      ∀ r lhs tokens, tokens.length ≤ n → lhs.Nested → lhs.StartsAfter r →
        lhs.EndsBefore tokens →
          Reads r (lhs.tokens ++ tokens) (going r lhs tokens).1.1 (going r lhs tokens).1.2 := by
  induction n using Nat.strong_induction_on with
  | h n ih =>
      have hgoing : ∀ r lhs tokens, tokens.length ≤ n → lhs.Nested → lhs.StartsAfter r →
          lhs.EndsBefore tokens →
            Reads r (lhs.tokens ++ tokens) (going r lhs tokens).1.1
              (going r lhs tokens).1.2 := by
        intro r lhs tokens hn hl hstarts hends
        by_cases hstop : bp tokens.head? ≤ r
        · rw [going_stop lhs hstop]
          exact ⟨rfl, hl, hstarts, hends, hstop⟩
        · cases tokens with
          | nil => exact absurd (bp_le_of_nil r) hstop
          | cons s rest =>
              have hs : (r : ℤ) < bp (some s) := not_le.mp hstop
              rw [List.length_cons] at hn
              have hrhs := (ih rest.length (by omega)).1 (rbp s) rest le_rfl
              have hle := (expr (rbp s) rest).2
              rw [going_binary lhs hs]
              have hread := (ih _ (lt_of_le_of_lt hle hn)).2 r
                (.binary s lhs (expr (rbp s) rest).1.1) (expr (rbp s) rest).1.2 le_rfl
                ⟨hl, hrhs.nested, (endsBefore_cons _).mp hends, hrhs.startsAfter⟩
                (startsAfter_binary.mpr ⟨hs, hstarts⟩)
                (endsBefore_binary.mpr ⟨hrhs.le, hrhs.endsBefore⟩)
              have htokens : (Ast.binary s lhs (expr (rbp s) rest).1.1).tokens ++
                  (expr (rbp s) rest).1.2 = lhs.tokens ++ s :: rest := by
                rw [Ast.tokens, List.append_assoc, List.cons_append, hrhs.tokens_eq]
              rwa [htokens] at hread
      refine ⟨fun r tokens hn => ?_, hgoing⟩
      rw [expr_eq]
      cases tokens with
      | nil =>
          have hnil : (prefixed []).1 = (.operand none, []) := by rw [prefixed]
          rw [hnil]
          exact hgoing r (.operand none) [] hn nofun nofun ⟨nofun, fun _ => rfl⟩
      | cons s rest =>
          by_cases hs : s = "-"
          · subst hs
            rw [List.length_cons] at hn
            have ht := (ih rest.length (by omega)).1 0 rest le_rfl
            have hle := (expr 0 rest).2
            rw [prefixed_unary]
            have hread := hgoing r (.unary (expr 0 rest).1.1) (expr 0 rest).1.2 (by omega)
              ⟨ht.nested, ht.startsAfter⟩ nofun (endsBefore_unary.mpr ⟨ht.le, ht.endsBefore⟩)
            rwa [Ast.tokens, List.cons_append, ht.tokens_eq] at hread
          · rw [prefixed_operand hs]
            rw [List.length_cons] at hn
            exact hgoing r (.operand (some s)) rest (by omega)
              (fun h => hs (Option.some.inj h)) nofun ⟨nofun, nofun⟩

/-- The parser returns a tree and the tokens after it exactly when these are its tokens, all
operands are where their operators say, and the tree ends before the rest.  So every list of
tokens can be read in one way only. -/
theorem expr_eq_iff (r : ℕ) (tokens : List String) (t : Ast) (rest : List String) :
    (expr r tokens).1 = (t, rest) ↔
      t.tokens ++ rest = tokens ∧ t.Nested ∧ t.StartsAfter r ∧ t.EndsBefore rest ∧
        bp rest.head? ≤ r := by
  constructor
  · intro h
    have hread := (reads tokens.length).1 r tokens le_rfl
    rw [h] at hread
    exact ⟨hread.tokens_eq, hread.nested, hread.startsAfter, hread.endsBefore, hread.le⟩
  · rintro ⟨rfl, hnested, hstarts, hends, hle⟩
    exact (expr_tokens hnested hstarts hends).trans (going_stop t hle)

end LuaAttic.Pratt
