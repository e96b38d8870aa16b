import Mathlib.Data.List.DropRight
import LuaAttic.Lua.Gsub
import LuaAttic.Lua.Pattern
import LuaAttic.Support.Fallible

/-!
# Database queries (`query.lua`)

The text of a query is a template in which `?` stands for an argument.  The
arguments are quoted and put in first; then comments are removed, and macros
and names are replaced.
-/

namespace LuaAttic.Query

open LuaAttic.Lua LuaAttic.Support

/-- What queries take from elsewhere.  Values of other types than those that
can be quoted are `Other`. -/
structure Platform where
  Num : Type
  Other : Type
  /-- `tostring(n)` -/
  tostring : Num → Bytes
  /-- `require'pp'.format(v)` -/
  format : Other → Bytes
  /-- `ngx.quote_sql_str(s)` -/
  quoteSqlStr : Bytes → Bytes
  quoted : ∀ s, ∃ w, quoteSqlStr s = lit "'" ++ w ++ lit "'"

/-- An argument of a query. -/
inductive Arg (P : Platform)
  | nil
  | bool (b : Bool)
  | str (s : Bytes)
  | num (n : P.Num)
  | other (v : P.Other)

inductive Error
  /-- `assert(qmacro[name], 'invalid macro')` -/
  | invalidMacro
  | invalidArg (message : Bytes)
  /-- what a macro raises -/
  | macroError (message : Bytes)
  deriving DecidableEq, Repr

/-- `substs` and `qmacro`.  A macro returns a string or nil, or raises. -/
structure Vocabulary where
  substs : List (Bytes × Bytes) := []
  macros : Bytes → Option (List Bytes → Except Bytes (Option Bytes)) := fun _ => none

/-! ## Macro substitution -/

/-- `[%w_]` -/
def wordChar : CharClass := fun b => isAlnum b || b == 0x5F

/-- `qsubst(def)`; nil for a definition without a name, which raises. -/
def qsubst (voc : Vocabulary) (definition : Bytes) : Option Vocabulary :=
  match Pattern.values ⟨[.capStart, .plus wordChar, .capStop, .plus isSpace,
      .capStart, .star anyChar, .capStop], false⟩ definition with
  | some [name, val] => some { voc with substs := (name, val) :: voc.substs }
  | _ => none

/-- `glue.trim(s)` -/
def trim (s : Bytes) : Bytes := (s.dropWhile isSpace).rdropWhile isSpace

/-- `'([^,]+)'` -/
def argPattern : Pattern where
  items := [.capStart, .plus (noneOf ","), .capStop]

/-- The arguments of a macro; there are none between two commas. -/
def macroArgs (args : Bytes) : List Bytes :=
  let args := args.tail.dropLast ++ lit ","
  (gmatch argPattern args).filterMap fun values => values.head?.map trim

/-- `macro_subst(name, args)` -/
def macroSubst (voc : Vocabulary) : List Bytes → Except Error (Option Bytes)
  | [name, args] =>
      match voc.macros name with
      | none => .error .invalidMacro
      | some expand => (expand (macroArgs args)).mapError .macroError
  | _ => .error .invalidMacro

/-- `'%-%-[^\r\n]*'` -/
def commentPattern : Pattern where
  items := [.one (chr '-'), .one (chr '-'), .star (noneOf "\r\n")]

/-- `'$([%w_]+)(%b())'` -/
def callPattern : Pattern where
  items := [.one (chr '$'), .capStart, .plus wordChar, .capStop, .capStart,
    .balance 0x28 0x29, .capStop]

/-- `'$([%w_]+)'` -/
def namePattern : Pattern where
  items := [.one (chr '$'), .capStart, .plus wordChar, .capStop]

/-- `sql:gsub('%-%-[^\r\n]*', '')` -/
def stripComments (sql : Bytes) : Bytes :=
  gsub commentPattern (fun _ => some []) sql

/-- `sql:gsub('$([%w_]+)(%b())', macro_subst)` -/
def expandMacros (voc : Vocabulary) (sql : Bytes) : Except Error Bytes :=
  gsubM callPattern (macroSubst voc) sql

/-- `substs[name]` -/
def substName (voc : Vocabulary) (values : List Bytes) : Option Bytes :=
  values.head?.bind fun name => List.lookup name voc.substs

/-- `sql:gsub('$([%w_]+)', substs)` -/
def replaceNames (voc : Vocabulary) (sql : Bytes) : Bytes :=
  gsub namePattern (substName voc) sql

/-- `preprocess(sql)` -/
def preprocess (voc : Vocabulary) (sql : Bytes) : Except Error Bytes := do
  let sql := stripComments sql
  let sql ← expandMacros voc sql
  return replaceNames voc sql

/-! ## Argument substitution -/

variable {P : Platform}

/-- `quote(v)`, and the error for a value that cannot be quoted. -/
def quote : Arg P → Except Bytes Bytes
  | .nil => .ok (lit "null")
  | .bool true => .ok (lit "1")
  | .bool false => .ok (lit "0")
  | .str s => .ok (P.quoteSqlStr s)
  | .num n => .ok (P.quoteSqlStr (P.tostring n))
  | .other v => .error (lit "invalid arg " ++ P.format v)

/-- `'%?'` -/
def placeholder : UInt8 := 0x3F

/-- `set_params(sql, ...)` -/
def setParams (sql : Bytes) (args : List (Arg P)) : Except Error Bytes := do
  let t ← (args.mapM quote).mapError fun err =>
    Error.invalidArg (err ++ lit " in query \"" ++ sql ++ lit "\"")
  let next : List Bytes → StateM ℕ (Option Bytes) := fun _ =>
    modifyGet fun i => (t[i]?, i + 1)
  return ((gsubM ⟨[.one (· == placeholder)], false⟩ next sql).run 0).1

/-- The text that `query(sql, ...)` sends to the server. -/
def queryText (voc : Vocabulary) (sql : Bytes) (args : List (Arg P)) :
    Except Error Bytes := do
  let sql ← setParams sql args
  preprocess voc sql

/-!
## What becomes of the arguments of a query

Comments are removed and macros and names are replaced after the arguments have
been put in.  The arguments stay as they are when no match of the three
patterns touches them.
-/

variable {P : Platform}

/-! ### Putting the arguments in -/

theorem matchHere_placeholder (b : UInt8) (s : Bytes) :
    Pattern.matchHere ⟨[.one (· == placeholder)], false⟩ (b :: s) =
      if b = placeholder then some ⟨[b], [[b]], s⟩ else none := by
  by_cases hb : b = placeholder <;>
    simp [Pattern.matchHere, matchItems, hb]

/-- The closure counts the placeholders. -/
theorem gsubM_placeholders (t : List Bytes) (sql : Bytes) (i : ℕ) :
    ((gsubM ⟨[.one (· == placeholder)], false⟩
      (fun _ => modifyGet fun i => (t[i]?, i + 1) :
        List Bytes → StateM ℕ (Option Bytes)) sql).run i).1 =
      fill placeholder sql (t.drop i) := by
  induction sql generalizing i with
  | nil =>
      rw [fill_nil_left, gsubM_nil rfl rfl]
      rfl
  | cons b sql ih =>
      by_cases hb : b = placeholder
      · subst hb
        have hmatch := matchHere_placeholder placeholder sql
        rw [if_pos rfl] at hmatch
        have hhit := gsubM_hit (w := [placeholder])
          (f := (fun _ => modifyGet fun i => (t[i]?, i + 1) :
            List Bytes → StateM ℕ (Option Bytes))) rfl hmatch (by simp)
        rw [List.singleton_append] at hhit
        rw [hhit]
        have hih := ih (i + 1)
        by_cases hi : i < t.length
        · rw [List.drop_eq_getElem_cons hi, fill_mark, ← hih]
          simp [hi]
          rfl
        · have hle := Nat.le_of_not_lt hi
          rw [List.drop_eq_nil_of_le (hle.trans (Nat.le_succ i))] at hih
          rw [List.drop_eq_nil_of_le hle, fill_nil_right]
          rw [fill_nil_right] at hih
          simp [hle]
          exact congrArg (placeholder :: ·) hih
      · have hmatch := matchHere_placeholder b sql
        rw [if_neg hb] at hmatch
        rw [gsubM_char rfl hmatch, fill_cons_of_ne hb, ← ih]
        rfl

theorem setParams_eq {args : List (Arg P)} {qs : List Bytes}
    (hqs : args.mapM quote = .ok qs) (sql : Bytes) :
    setParams sql args = .ok (fill placeholder sql qs) := by
  have h := gsubM_placeholders qs sql 0
  rw [List.drop_zero] at h
  rw [← h, setParams, hqs]
  rfl

/-! ### Rewriting afterwards -/

/-- What the passes of `preprocess` find in the text with the arguments is what
they find in the template. -/
structure Apart (voc : Vocabulary) (sql : Bytes) (qs : List Bytes) : Prop where
  comments : Untouched placeholder commentPattern
    (fun _ => (.ok (some []) : Except Error (Option Bytes))) sql qs
  calls : Untouched placeholder callPattern (macroSubst voc)
    (stripComments sql) qs
  names : ∀ t, expandMacros voc (stripComments sql) = .ok t →
    Untouched placeholder namePattern
      (fun values => (.ok (substName voc values) : Except Error (Option Bytes))) t qs

/-- The text sent is the preprocessed template with the arguments filled in, or
both raise the same error. -/
def KeepsArguments (voc : Vocabulary) (sql : Bytes) (args : List (Arg P)) :
    Prop :=
  ∀ qs, args.mapM quote = .ok qs →
    queryText voc sql args = (fill placeholder · qs) <$> preprocess voc sql

/-- A pass without effects. -/
theorem gsub_fill {p : Pattern} (hp : p.anchored = false)
    (hnil : p.matchHere [] = none) {f : List Bytes → Option Bytes} {u : Bytes}
    {qs : List Bytes}
    (h : Untouched placeholder p
      (fun values => (.ok (f values) : Except Error (Option Bytes))) u qs) :
    gsub p f (fill placeholder u qs) = fill placeholder (gsub p f u) qs := by
  have hfill := gsubM_fill hp hnil h
  have hpure : ∀ s, gsubM p
      (fun values => (.ok (f values) : Except Error (Option Bytes))) s =
      .ok (gsub p f s) := fun s => gsubM_pure p f s
  rw [hpure, hpure] at hfill
  exact Except.ok.inj hfill

theorem preprocess_fill {voc : Vocabulary} {sql : Bytes} {qs : List Bytes}
    (h : Apart voc sql qs) :
    preprocess voc (fill placeholder sql qs) =
      (fill placeholder · qs) <$> preprocess voc sql := by
  have hcomments : stripComments (fill placeholder sql qs) =
      fill placeholder (stripComments sql) qs := gsub_fill rfl rfl h.comments
  have hcalls : expandMacros voc (fill placeholder (stripComments sql) qs) =
      (fill placeholder · qs) <$> expandMacros voc (stripComments sql) :=
    gsubM_fill rfl rfl h.calls
  simp only [preprocess, hcomments, hcalls]
  cases ht : expandMacros voc (stripComments sql) with
  | error e => rfl
  | ok t => exact congrArg Except.ok (gsub_fill rfl rfl (h.names t ht))

theorem queryText_eq {args : List (Arg P)} {qs : List Bytes}
    (hqs : args.mapM quote = .ok qs) (voc : Vocabulary) (sql : Bytes) :
    queryText voc sql args = preprocess voc (fill placeholder sql qs) := by
  rw [queryText, setParams_eq hqs]
  rfl

theorem keepsArguments_iff {args : List (Arg P)} {qs : List Bytes}
    (hqs : args.mapM quote = .ok qs) (voc : Vocabulary) (sql : Bytes) :
    KeepsArguments voc sql args ↔
      preprocess voc (fill placeholder sql qs) =
        (fill placeholder · qs) <$> preprocess voc sql := by
  rw [← queryText_eq hqs]
  constructor
  · exact fun h => h qs hqs
  · intro h qs' hqs'
    obtain rfl : qs = qs' := Except.ok.inj (hqs.symm.trans hqs')
    exact h

/-! ### Comments -/

/-- A comment runs to the end of its line. -/
theorem matchHere_comment (t : Bytes) :
    commentPattern.matchHere ((0x2D :: 0x2D :: t.takeWhile (noneOf "\r\n")) ++
        t.dropWhile (noneOf "\r\n")) =
      some ⟨0x2D :: 0x2D :: t.takeWhile (noneOf "\r\n"),
        [0x2D :: 0x2D :: t.takeWhile (noneOf "\r\n")],
        t.dropWhile (noneOf "\r\n")⟩ := by
  have hitems : matchItems commentPattern.items [] ((0x2D :: 0x2D ::
      t.takeWhile (noneOf "\r\n")) ++ t.dropWhile (noneOf "\r\n")) =
      some (t.dropWhile (noneOf "\r\n"), []) := by
    simp only [List.cons_append, List.takeWhile_append_dropWhile]
    exact maxExpand_of_isSome rfl
  simpa only [if_true] using matchHere_append hitems

/-- Without two dashes there is no comment. -/
theorem matchHere_comment_eq_none {s : Bytes} (h : ¬ [0x2D, 0x2D] <+: s) :
    commentPattern.matchHere s = none := by
  have hdash : '-'.toUInt8 = 0x2D := rfl
  apply matchHere_eq_none
  match s with
  | [] => rfl
  | [b] => simp [commentPattern, matchItems]
  | b :: d :: s =>
      by_cases hb : b = 0x2D
      · have hd : d ≠ 0x2D := by
          rintro rfl
          exact h ⟨s, by rw [hb]; rfl⟩
        simp [commentPattern, matchItems, hdash, hd]
      · simp [commentPattern, matchItems, hdash, hb]

theorem stripComments_comment (t : Bytes) :
    stripComments (0x2D :: 0x2D :: t) =
      stripComments (t.dropWhile (noneOf "\r\n")) := by
  have h := gsub_hit (g := fun _ => some []) rfl (matchHere_comment t)
    (List.cons_ne_nil _ _)
  simpa only [stripComments, List.cons_append, List.takeWhile_append_dropWhile,
    Option.getD_some, List.nil_append] using h

theorem stripComments_cons {b : UInt8} {s : Bytes}
    (h : ¬ [0x2D, 0x2D] <+: b :: s) :
    stripComments (b :: s) = b :: stripComments s :=
  gsub_char rfl (matchHere_comment_eq_none h)

/-- A text is empty, or starts with a comment, or with another character. -/
theorem comment_induction {motive : Bytes → Prop} (nil : motive [])
    (comment : ∀ t, motive (t.dropWhile (noneOf "\r\n")) →
      motive (0x2D :: 0x2D :: t))
    (char : ∀ b s, ¬ [0x2D, 0x2D] <+: b :: s → motive s → motive (b :: s))
    (s : Bytes) : motive s := by
  induction hn : s.length using Nat.strong_induction_on generalizing s with
  | _ n ih =>
      subst hn
      cases s with
      | nil => exact nil
      | cons b s =>
          by_cases h : [0x2D, 0x2D] <+: b :: s
          · obtain ⟨t, ht⟩ := h
            rw [← ht]
            refine comment t (ih _ ?_ _ rfl)
            have hdrop := List.length_dropWhile_le (noneOf "\r\n") t
            rw [← ht]
            exact Nat.lt_succ_of_lt (Nat.lt_succ_of_le hdrop)
          · exact char b s h (ih _ (Nat.lt_succ_self _) s rfl)

theorem mem_of_mem_stripComments {c : UInt8} {s : Bytes}
    (h : c ∈ stripComments s) : c ∈ s := by
  induction s using comment_induction with
  | nil => exact h
  | comment t ih =>
      rw [stripComments_comment] at h
      have hmem := (List.dropWhile_suffix (noneOf "\r\n")).subset (ih h)
      exact List.mem_cons_of_mem _ (List.mem_cons_of_mem _ hmem)
  | char b s hdash ih =>
      rw [stripComments_cons hdash] at h
      rcases List.mem_cons.mp h with rfl | h
      · exact List.mem_cons_self
      · exact List.mem_cons_of_mem b (ih h)

theorem count_stripComments_le (c : UInt8) (s : Bytes) :
    (stripComments s).count c ≤ s.count c := by
  induction s using comment_induction with
  | nil => exact le_rfl
  | comment t ih =>
      rw [stripComments_comment]
      refine ih.trans (List.Sublist.count_le c ?_)
      exact ((List.dropWhile_sublist _).cons _).cons _
  | char b s hdash ih =>
      rw [stripComments_cons hdash, List.count_cons, List.count_cons]
      exact Nat.add_le_add_right ih _

/-- What is left of a text that starts with a comment is empty or starts with
the end of a line. -/
theorem head_stripComments_ne {s : Bytes} (h : s.head? ≠ some 0x2D) :
    (stripComments s).head? ≠ some 0x2D := by
  cases s with
  | nil => exact h
  | cons b s =>
      have hdash : ¬ [0x2D, 0x2D] <+: b :: s := fun hpre =>
        h (congrArg some (List.cons_prefix_cons.mp hpre).1.symm)
      rw [stripComments_cons hdash]
      exact h

theorem head_dropWhile_line (t : Bytes) :
    (t.dropWhile (noneOf "\r\n")).head? ≠ some 0x2D := by
  intro h
  have hnot := List.head?_dropWhile_not (noneOf "\r\n") t
  rw [h] at hnot
  exact absurd hnot (by decide)

/-- A text without two dashes is copied, unless what follows makes two of them. -/
theorem stripComments_append {q x : Bytes} (hdash : ¬ [0x2D, 0x2D] <:+: q)
    (hlast : q.getLast? ≠ some 0x2D) :
    stripComments (q ++ x) = q ++ stripComments x := by
  induction q with
  | nil => rfl
  | cons b q ih =>
      rw [List.infix_cons_iff, not_or] at hdash
      have hpre : ¬ [0x2D, 0x2D] <+: b :: (q ++ x) := by
        intro hpre
        obtain ⟨rfl, hnext⟩ := List.cons_prefix_cons.mp hpre
        cases q with
        | nil => exact hlast rfl
        | cons d q =>
            have hd : 0x2D = d := (List.cons_prefix_cons.mp hnext).1
            exact hdash.1 ⟨q, by rw [← hd]; rfl⟩
      have hrest : q.getLast? ≠ some 0x2D := by
        cases q with
        | nil => exact nofun
        | cons d q => simpa using hlast
      rw [List.cons_append, stripComments_cons hpre, ih hdash.2 hrest,
        List.cons_append]

/-- The dashes of a text with a comment are not there afterwards. -/
theorem stripComments_append_ne {q : Bytes} (hdash : [0x2D, 0x2D] <:+: q)
    (x y : Bytes) : stripComments (q ++ x) ≠ q ++ y := by
  induction q with
  | nil => simp at hdash
  | cons b q ih =>
      by_cases hpre : [0x2D, 0x2D] <+: b :: (q ++ x)
      · obtain ⟨t, ht⟩ := hpre
        intro heq
        rw [List.cons_append, ← ht] at heq
        change stripComments (0x2D :: 0x2D :: t) = b :: (q ++ y) at heq
        have hb : 0x2D = b := (List.cons_eq_cons.mp ht).1
        rw [stripComments_comment] at heq
        have hhead := head_stripComments_ne (head_dropWhile_line t)
        rw [heq, ← hb] at hhead
        exact hhead rfl
      · rw [List.cons_append, stripComments_cons hpre, List.cons_append]
        intro heq
        rcases List.infix_cons_iff.mp hdash with hq | hq
        · exact hpre (hq.trans ⟨x, rfl⟩)
        · exact ih hq (List.cons_eq_cons.mp heq).2

/-! ### Queries without macros and names -/

/-- Without a dollar sign there are no macros and no names. -/
theorem copies_of_notMem {p : Pattern} {items : List Item}
    (hp : p.items = .one (chr '$') :: items) {ε : Type}
    (f : List Bytes → Except ε (Option Bytes)) {a : Bytes} (h : 0x24 ∉ a)
    (rest : Bytes) : Copies p f a rest := by
  refine .of_no_match fun z hsuffix hz => ?_
  obtain ⟨b, z, rfl⟩ := List.exists_cons_of_ne_nil hz
  have hb : b ≠ 0x24 := by
    rintro rfl
    exact h (((List.mem_tails _ _).mp hsuffix).subset List.mem_cons_self)
  exact matchHere_of_first hp (beq_false_of_ne hb) _

theorem preprocess_of_notMem (voc : Vocabulary) {sql : Bytes}
    (h : 0x24 ∉ sql) : preprocess voc sql = .ok (stripComments sql) := by
  have hstrip : 0x24 ∉ stripComments sql := fun hmem =>
    h (mem_of_mem_stripComments hmem)
  have hcalls : expandMacros voc (stripComments sql) =
      .ok (stripComments sql) := by
    have hcopy := gsubM_of_copies rfl
      (copies_of_notMem (p := callPattern) rfl (macroSubst voc) hstrip [])
    rwa [List.append_nil, gsubM_nil rfl rfl, map_pure, List.append_nil] at hcopy
  have hnames : replaceNames voc (stripComments sql) = stripComments sql := by
    have hcopy := gsubM_of_copies rfl (copies_of_notMem (p := namePattern) rfl
      (fun values => (.ok (substName voc values) : Except Error _)) hstrip [])
    rw [List.append_nil, gsubM_nil rfl rfl, map_pure, List.append_nil] at hcopy
    exact Except.ok.inj ((gsubM_pure namePattern (substName voc) _).symm.trans hcopy)
  rw [preprocess]
  simp only [hcalls]
  exact congrArg Except.ok hnames

/-- Strings that do not start or end with a dash. -/
def DashFree (q : Bytes) : Prop :=
  q ≠ [] ∧ q.head? ≠ some 0x2D ∧ q.getLast? ≠ some 0x2D

theorem head_fill {sql : Bytes} {qs : List Bytes} (hqs : ∀ q ∈ qs, DashFree q)
    (h : (fill placeholder sql qs).head? = some 0x2D) :
    sql.head? = some 0x2D := by
  cases sql with
  | nil => simp at h
  | cons b sql =>
      cases qs with
      | nil => simpa using h
      | cons q qs =>
          by_cases hb : b = placeholder
          · subst hb
            obtain ⟨hne, hhead, -⟩ := hqs q List.mem_cons_self
            rw [fill_mark, List.head?_append_of_ne_nil _ hne] at h
            exact absurd h hhead
          · rw [fill_cons_of_ne hb] at h
            exact h

/-- A line without placeholders ends where it did. -/
theorem dropWhile_fill {t : Bytes}
    (h : placeholder ∉ t.takeWhile (noneOf "\r\n")) (qs : List Bytes) :
    (fill placeholder t qs).dropWhile (noneOf "\r\n") =
      fill placeholder (t.dropWhile (noneOf "\r\n")) qs := by
  induction t with
  | nil => simp
  | cons b t ih =>
      by_cases hb : noneOf "\r\n" b = true
      · rw [List.takeWhile_cons_of_pos hb, List.mem_cons, not_or] at h
        rw [fill_cons_of_ne (Ne.symm h.1), List.dropWhile_cons_of_pos hb,
          List.dropWhile_cons_of_pos hb, ih h.2]
      · have hne : b ≠ placeholder := by
          rintro rfl
          exact hb rfl
        rw [fill_cons_of_ne hne, List.dropWhile_cons_of_neg hb,
          List.dropWhile_cons_of_neg hb, fill_cons_of_ne hne]

/-- Where no comment has a placeholder, comments are removed before and after
alike exactly if no argument that is put in has two dashes. -/
theorem stripComments_fill_iff {sql : Bytes} {qs : List Bytes}
    (hsql : (stripComments sql).count placeholder = sql.count placeholder)
    (hqs : ∀ q ∈ qs, DashFree q) :
    stripComments (fill placeholder sql qs) =
        fill placeholder (stripComments sql) qs ↔
      ∀ q ∈ qs.take (sql.count placeholder), ¬ [0x2D, 0x2D] <:+: q := by
  induction sql using comment_induction generalizing qs with
  | nil =>
      have hnil : stripComments [] = [] := rfl
      rw [fill_nil_left, hnil, fill_nil_left]
      exact iff_of_true rfl (by simp)
  | comment t ih =>
      have hfill : fill placeholder (0x2D :: 0x2D :: t) qs =
          0x2D :: 0x2D :: fill placeholder t qs := by
        rw [fill_cons_of_ne (by decide), fill_cons_of_ne (by decide)]
      have hcount : (0x2D :: 0x2D :: t : Bytes).count placeholder =
          t.count placeholder := by
        rw [List.count_cons_of_ne (by decide), List.count_cons_of_ne (by decide)]
      rw [stripComments_comment, hcount] at hsql
      have hsplit := congrArg (List.count placeholder)
        (List.takeWhile_append_dropWhile (p := noneOf "\r\n") (l := t))
      rw [List.count_append] at hsplit
      have hle := count_stripComments_le placeholder (t.dropWhile (noneOf "\r\n"))
      have hline : placeholder ∉ t.takeWhile (noneOf "\r\n") := by
        rw [← List.count_eq_zero]
        omega
      have hrest : (stripComments (t.dropWhile (noneOf "\r\n"))).count placeholder =
          (t.dropWhile (noneOf "\r\n")).count placeholder := by
        omega
      rw [hfill, stripComments_comment, stripComments_comment, dropWhile_fill hline,
        ih hrest hqs, hcount]
      rw [List.count_eq_zero.mpr hline, Nat.zero_add] at hsplit
      rw [hsplit]
  | char b sql hdash ih =>
      rw [stripComments_cons hdash] at hsql ⊢
      cases qs with
      | nil => simp [stripComments_cons hdash]
      | cons q qs =>
          by_cases hb : b = placeholder
          · subst hb
            have hcount : (stripComments sql).count placeholder =
                sql.count placeholder := by simpa using hsql
            have hih := ih hcount fun q' h => hqs q' (List.mem_cons_of_mem q h)
            obtain ⟨-, -, hlast⟩ := hqs q List.mem_cons_self
            rw [fill_mark, fill_mark, List.count_cons_self, List.take_succ_cons,
              List.forall_mem_cons, ← hih]
            by_cases hq : [0x2D, 0x2D] <:+: q
            · exact iff_of_false (stripComments_append_ne hq _ _) fun h => h.1 hq
            · rw [stripComments_append hq hlast, List.append_cancel_left_eq]
              exact (and_iff_right hq).symm
          · have hcount : (stripComments sql).count placeholder =
                sql.count placeholder := by simpa [hb] using hsql
            have hpre : ¬ [0x2D, 0x2D] <+: b :: fill placeholder sql (q :: qs) := by
              intro hpre
              obtain ⟨rfl, t, ht⟩ := List.cons_prefix_cons.mp hpre
              have hhead := head_fill hqs (by rw [← ht]; rfl)
              obtain ⟨sql', rfl⟩ := List.head?_eq_some_iff.mp hhead
              exact hdash ⟨sql', rfl⟩
            rw [fill_cons_of_ne hb, fill_cons_of_ne hb, stripComments_cons hpre,
              List.cons_inj_right, ih hcount hqs, List.count_cons_of_ne hb]

theorem dashFree_quote {a : Arg P} {q : Bytes} (h : quote a = .ok q) :
    DashFree q := by
  have hquoted : ∀ s, DashFree (P.quoteSqlStr s) := by
    intro s
    obtain ⟨w, hw⟩ := P.quoted s
    have hquote : lit "'" = [0x27] := rfl
    rw [hw, hquote]
    exact ⟨by simp, by simp, by rw [List.getLast?_concat]; decide⟩
  rcases a with _ | b | s | n | v
  · cases h
    exact ⟨by decide, by decide, by decide⟩
  · rcases b with _ | _ <;> cases h <;> exact ⟨by decide, by decide, by decide⟩
  · cases h
    exact hquoted s
  · cases h
    exact hquoted _
  · cases h

/-- There are no dollar signs anywhere, and no placeholders in comments. -/
structure IsPlain (sql : Bytes) (qs : List Bytes) : Prop where
  comments : (stripComments sql).count placeholder = sql.count placeholder
  template : 0x24 ∉ sql
  arguments : ∀ q ∈ qs, 0x24 ∉ q

theorem keepsArguments_iff_of_plain {args : List (Arg P)} {qs : List Bytes}
    (hqs : args.mapM quote = .ok qs) (voc : Vocabulary) {sql : Bytes}
    (h : IsPlain sql qs) :
    KeepsArguments voc sql args ↔
      ∀ q ∈ qs.take (sql.count placeholder), ¬ [0x2D, 0x2D] <:+: q := by
  have hfree : ∀ q ∈ qs, DashFree q := fun q hq => by
    obtain ⟨a, -, ha⟩ := exists_of_mem_mapM hqs hq
    exact dashFree_quote ha
  have hdollar : 0x24 ∉ fill placeholder sql qs := fun hmem =>
    (mem_fill placeholder hmem).elim h.template
      fun ⟨q, hq, hmem⟩ => h.arguments q hq hmem
  rw [keepsArguments_iff hqs, preprocess_of_notMem voc hdollar,
    preprocess_of_notMem voc h.template, ← stripComments_fill_iff h.comments hfree]
  exact ⟨fun heq => Except.ok.inj heq, fun heq => congrArg Except.ok heq⟩

/-- The arguments are kept where the passes do not touch them.  For queries
without macros and names, and without placeholders in comments, this is so
exactly when no argument that is put in has two dashes. -/
theorem keepsArguments_of_apart (voc : Vocabulary) (sql : Bytes)
    (args : List (Arg P)) (qs : List Bytes) (hqs : args.mapM quote = .ok qs) :
    (Apart voc sql qs → KeepsArguments voc sql args) ∧
      (IsPlain sql qs → (KeepsArguments voc sql args ↔
        ∀ q ∈ qs.take (sql.count placeholder), ¬ [0x2D, 0x2D] <:+: q)) :=
  ⟨fun h => (keepsArguments_iff hqs voc sql).mpr (preprocess_fill h),
    keepsArguments_iff_of_plain hqs voc⟩

/-- `ngx.quote_sql_str(s)` -/
def quoteSqlStr (s : Bytes) : Bytes :=
  let escape (b : UInt8) : Bytes :=
    if b = 0x00 then lit "\\0"
    else if b = 0x0A then lit "\\n"
    else if b = 0x0D then lit "\\r"
    else if b = 0x1A then lit "\\Z"
    else if b = 0x22 ∨ b = 0x27 ∨ b = 0x5C then [0x5C, b]
    else [b]
  lit "'" ++ s.flatMap escape ++ lit "'"

/-- A platform without numbers and other values. -/
def stringPlatform : Platform where
  Num := Empty
  Other := Empty
  tostring := Empty.elim
  format := Empty.elim
  quoteSqlStr := quoteSqlStr
  quoted _ := ⟨_, rfl⟩

/-- `$x` stands for `1`. -/
def oneName : Vocabulary where
  substs := [(lit "x", lit "1")]

theorem apart_oneName : Apart oneName (lit "select " ++ (lit "$x" ++ lit ", ?"))
    [lit "'a'"] where
  comments := .of_copies (.of_no_match (by decide)) (.of_no_match (by decide))
  calls := .of_copies (.of_no_match (by decide)) (.of_no_match (by decide))
  names t ht := by
    have ht' : lit "select " ++ (lit "$x" ++ lit ", ?") = t := Except.ok.inj ht
    rw [← ht']
    refine .copied (.of_no_match (by decide)) (.of_no_match (by decide)) ?_
    refine .replaced (by decide) rfl rfl (by decide) ?_ ?_
    · intro e he
      have he' : some (lit "1") = some e := Except.ok.inj he
      cases he'
      decide
    · exact .of_copies (.of_no_match (by decide)) (.of_no_match (by decide))

theorem keepsArguments_oneName :
    KeepsArguments oneName (lit "select $x, ?")
        [Arg.str (P := stringPlatform) (lit "a")] ∧
      KeepsArguments {} (lit "select ?")
        [Arg.str (P := stringPlatform) (lit "a-b")] :=
  ⟨(keepsArguments_of_apart oneName (lit "select $x, ?")
      [Arg.str (P := stringPlatform) (lit "a")] [lit "'a'"] rfl).1 apart_oneName,
    ((keepsArguments_of_apart {} (lit "select ?")
      [Arg.str (P := stringPlatform) (lit "a-b")] [lit "'a-b'"] rfl).2
        ⟨by decide, by decide, by decide⟩).mpr (by decide)⟩

/-- The two dashes in the argument start a comment, which takes the closing
quote as well. -/
theorem argument_cut_off :
    queryText {} (lit "select ?") [Arg.str (P := stringPlatform) (lit "a--b")] =
        .ok (lit "select 'a") ∧
      ¬ KeepsArguments {} (lit "select ?")
        [Arg.str (P := stringPlatform) (lit "a--b")] := by
  have htext : queryText {} (lit "select ?")
      [Arg.str (P := stringPlatform) (lit "a--b")] = .ok (lit "select 'a") := rfl
  have hplain : IsPlain (lit "select ?") [lit "'a--b'"] :=
    ⟨by decide, by decide, by decide⟩
  refine ⟨htext, (keepsArguments_iff_of_plain rfl {} hplain).not.mpr ?_⟩
  decide

end LuaAttic.Query
