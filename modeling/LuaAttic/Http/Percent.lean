import LuaAttic.Http.Uri

/-!
# Escaped strings

What `escape` returns is a list of tokens, which are characters and escaped
bytes, and `unescape` returns what they stand for.  On other strings `unescape`
is described by its recursion from the left.
-/

namespace LuaAttic.Http.Uri

open LuaAttic.Lua

/-! ## The recursion of `unescape` -/

/-- A `%` with two digits after it. -/
def StartsEscape (s : Bytes) : Prop :=
  ∃ h₁ h₂ t, s = 0x25 :: h₁ :: h₂ :: t ∧ isXDigit h₁ = true ∧ isXDigit h₂ = true

/-- Nothing in the string is taken for an escaped byte. -/
def EscapeFree (s : Bytes) : Prop :=
  ∀ a t, s = a ++ t → ¬ StartsEscape t

@[simp] theorem unescape_nil : unescape [] = [] := rfl

theorem tonumber16_of_digits {s : Bytes} (hs : s ≠ [])
    (h : ∀ b ∈ s, isXDigit b = true) : tonumber16 s = some (hexNumber s) := by
  have hback : ∀ b ∈ s.reverse, isXDigit b = true := fun b hb =>
    h b (List.mem_reverse.mp hb)
  simp only [tonumber16, dropWhile_isSpace_of_xdigits h,
    dropWhile_isSpace_of_xdigits hback, List.reverse_reverse]
  rw [if_pos ⟨hs, List.all_eq_true.mpr h⟩]

theorem unescape_escaped {h₁ h₂ : UInt8} (hx₁ : isXDigit h₁ = true)
    (hx₂ : isXDigit h₂ = true) (s : Bytes) :
    unescape (0x25 :: h₁ :: h₂ :: s) =
      UInt8.ofNat (hexNumber [h₁, h₂]) :: unescape s := by
  have hitems : matchItems escapePattern.items [] ([0x25, h₁, h₂] ++ s) =
      some (s, [.closed [h₁, h₂]]) := by
    have hlen : s.length + 1 + 1 - s.length = 2 := by omega
    simp [escapePattern, matchItems, hx₁, hx₂, closeLast, Char.toUInt8, hlen]
  have hdigits : ∀ b ∈ [h₁, h₂], isXDigit b = true := by
    simp [hx₁, hx₂]
  have hhit := piecesFrom_hit (matchHere_append hitems) (List.cons_ne_nil _ _)
  change gsub escapePattern unesc ([0x25, h₁, h₂] ++ s) = _
  rw [gsub, Pattern.pieces, if_neg (by simp [escapePattern]), hhit,
    List.flatMap_cons]
  simp [unesc, Capture.value,
    tonumber16_of_digits (List.cons_ne_nil _ _) hdigits]
  rfl

theorem unescape_char {b : UInt8} {s : Bytes} (h : ¬ StartsEscape (b :: s)) :
    unescape (b :: s) = b :: unescape s := by
  have hitems : matchItems escapePattern.items [] (b :: s) = none := by
    by_cases hb : b = 0x25
    · subst hb
      rcases s with _ | ⟨h₁, _ | ⟨h₂, s⟩⟩
      · rfl
      · simp [escapePattern, matchItems]
      · have hx : ¬ (isXDigit h₁ = true ∧ isXDigit h₂ = true) := fun hx =>
          h ⟨h₁, h₂, s, rfl, hx⟩
        simp only [escapePattern, matchItems]
        split_ifs <;> simp_all
    · simp [escapePattern, matchItems, Char.toUInt8, hb]
  change gsub escapePattern unesc (b :: s) = b :: gsub escapePattern unesc s
  rw [gsub, Pattern.pieces, if_neg (by simp [escapePattern]),
    Pattern.piecesFrom, matchHere_eq_none hitems]
  rfl

/-- An escaped byte or a character at a time. -/
theorem escape_induction {motive : Bytes → Prop} (nil : motive [])
    (escaped : ∀ h₁ h₂ s, isXDigit h₁ = true → isXDigit h₂ = true →
      motive s → motive (0x25 :: h₁ :: h₂ :: s))
    (char : ∀ b s, ¬ StartsEscape (b :: s) → motive s → motive (b :: s))
    (s : Bytes) : motive s := by
  induction hn : s.length using Nat.strong_induction_on generalizing s with
  | _ n ih =>
      subst hn
      by_cases hs : StartsEscape s
      · obtain ⟨h₁, h₂, t, rfl, hx₁, hx₂⟩ := hs
        exact escaped h₁ h₂ t hx₁ hx₂
          (ih t.length (by simp [List.length_cons]; omega) t rfl)
      · cases s with
        | nil => exact nil
        | cons b t => exact char b t hs (ih t.length (Nat.lt_succ_self _) t rfl)

theorem length_unescape_le (s : Bytes) : (unescape s).length ≤ s.length := by
  induction s using escape_induction with
  | nil => exact le_rfl
  | escaped h₁ h₂ s hx₁ hx₂ ih =>
      rw [unescape_escaped hx₁ hx₂]
      simp only [List.length_cons]
      omega
  | char b s h ih =>
      rw [unescape_char h]
      exact Nat.succ_le_succ ih

/-- What is not shortened is not changed. -/
theorem unescape_eq_self {s : Bytes} (h : s.length ≤ (unescape s).length) :
    unescape s = s := by
  induction s using escape_induction with
  | nil => rfl
  | escaped h₁ h₂ s hx₁ hx₂ ih =>
      rw [unescape_escaped hx₁ hx₂] at h
      have hle := length_unescape_le s
      simp only [List.length_cons] at h
      omega
  | char b s hb ih =>
      rw [unescape_char hb] at h ⊢
      rw [ih (Nat.le_of_succ_le_succ h)]

theorem unescape_eq_self_iff {s : Bytes} : unescape s = s ↔ EscapeFree s := by
  induction s using escape_induction with
  | nil =>
      refine iff_of_true rfl ?_
      rintro a t hat ⟨h₁, h₂, u, rfl, -⟩
      simp at hat
  | escaped h₁ h₂ s hx₁ hx₂ ih =>
      refine iff_of_false (fun heq => ?_) (fun hfree => ?_)
      · rw [unescape_escaped hx₁ hx₂] at heq
        have hle := length_unescape_le s
        have hlen := congrArg List.length heq
        simp only [List.length_cons] at hlen
        omega
      · exact hfree [] _ rfl ⟨h₁, h₂, s, rfl, hx₁, hx₂⟩
  | char b s hb ih =>
      rw [unescape_char hb, List.cons.injEq, and_iff_right rfl, ih]
      constructor
      · intro hfree a t hat
        cases a with
        | nil =>
            rw [List.nil_append] at hat
            exact hat ▸ hb
        | cons d a => exact hfree a t (List.cons.inj hat).2
      · intro hfree a t hat
        exact hfree (b :: a) t (congrArg (b :: ·) hat)

/-- A character that is neither `%` nor a digit divides the escaped bytes. -/
theorem unescape_append_cons {b : UInt8} (hb : b ≠ 0x25)
    (hx : isXDigit b = false) (a s : Bytes) :
    unescape (a ++ b :: s) = unescape a ++ b :: unescape s := by
  induction a using escape_induction with
  | nil =>
      refine unescape_char ?_
      rintro ⟨h₁, h₂, t, heq, -⟩
      exact hb (List.cons.inj heq).1
  | escaped h₁ h₂ a hx₁ hx₂ ih =>
      rw [unescape_escaped hx₁ hx₂, List.cons_append, List.cons_append,
        List.cons_append, unescape_escaped hx₁ hx₂, ih, List.cons_append]
  | char d a hd ih =>
      have hd' : ¬ StartsEscape (d :: (a ++ b :: s)) := by
        rintro ⟨h₁, h₂, t, heq, hx₁, hx₂⟩
        obtain ⟨rfl, htail⟩ := List.cons.inj heq
        rcases a with _ | ⟨e, _ | ⟨f, a⟩⟩
        · obtain ⟨rfl, -⟩ := List.cons.inj htail
          rw [hx] at hx₁
          cases hx₁
        · obtain ⟨-, hlast⟩ := List.cons.inj htail
          obtain ⟨rfl, -⟩ := List.cons.inj hlast
          rw [hx] at hx₂
          cases hx₂
        · obtain ⟨rfl, hlast⟩ := List.cons.inj htail
          obtain ⟨rfl, -⟩ := List.cons.inj hlast
          exact hd ⟨e, f, a, rfl, hx₁, hx₂⟩
      rw [unescape_char hd, List.cons_append, unescape_char hd', ih,
        List.cons_append]

/-! ## Tokens -/

/-- A character that stands for itself, or an escaped byte. -/
inductive Token
  | char (b : UInt8)
  | escaped (b : UInt8)
  deriving DecidableEq, Repr

def Token.value : Token → UInt8
  | .char b => b
  | .escaped b => b

def Token.render : Token → Bytes
  | .char b => [b]
  | .escaped b => 0x25 :: hexByte b

/-- The string that the tokens make up. -/
def render (l : List Token) : Bytes := l.flatMap Token.render

/-- No character is a `%`. -/
def Proper (l : List Token) : Prop := .char 0x25 ∉ l

@[simp] theorem render_nil : render [] = [] := rfl

@[simp] theorem render_cons (t : Token) (l : List Token) :
    render (t :: l) = t.render ++ render l := List.flatMap_cons

@[simp] theorem render_append (l m : List Token) :
    render (l ++ m) = render l ++ render m := List.flatMap_append

theorem hexByte_number (b : UInt8) :
    UInt8.ofNat (hexNumber (hexByte b)) = b ∧
      ∀ d ∈ hexByte b, isXDigit d = true := by
  have hnumber : ∀ b, UInt8.ofNat (hexNumber (hexByte b)) = b := forall_byte (by decide)
  have hdigits : ∀ b, (hexByte b).all isXDigit = true := forall_byte (by decide)
  exact ⟨hnumber b, List.all_eq_true.mp (hdigits b)⟩

/-- Tokens are decoded one after the other, whatever comes after them. -/
theorem unescape_render {l : List Token} (h : Proper l) (s : Bytes) :
    unescape (render l ++ s) = l.map Token.value ++ unescape s := by
  induction l with
  | nil => rfl
  | cons t l ih =>
      have hl : Proper l := fun hmem => h (List.mem_cons_of_mem t hmem)
      cases t with
      | char b =>
          have hb : b ≠ 0x25 := by
            rintro rfl
            exact h List.mem_cons_self
          have hstart : ¬ StartsEscape (b :: (render l ++ s)) := by
            rintro ⟨h₁, h₂, u, heq, -⟩
            exact hb (List.cons.inj heq).1
          rw [render_cons, Token.render, List.append_assoc,
            List.singleton_append, unescape_char hstart, ih hl]
          rfl
      | escaped b =>
          have hdigits := (hexByte_number b).2
          have hbyte : (Token.escaped b).render ++ render l ++ s =
              0x25 :: hexDigit (b.toNat / 16) :: hexDigit (b.toNat % 16) ::
                (render l ++ s) := rfl
          rw [render_cons, hbyte, unescape_escaped
            (hdigits _ List.mem_cons_self)
            (hdigits _ (List.mem_cons_of_mem _ List.mem_cons_self)), ih hl]
          exact congrArg (· :: _) (hexByte_number b).1

theorem unescape_render_self {l : List Token} (h : Proper l) :
    unescape (render l) = l.map Token.value := by
  have hall := unescape_render h []
  rwa [List.append_nil, unescape_nil, List.append_nil] at hall

/-- A character that is neither `%` nor a digit is there as a token only. -/
theorem mem_render {l : List Token} {b : UInt8} (hb : b ≠ 0x25)
    (hx : isXDigit b = false) : b ∈ render l ↔ .char b ∈ l := by
  rw [render, List.mem_flatMap]
  constructor
  · rintro ⟨t, ht, hmem⟩
    cases t with
    | char d =>
        rw [Token.render, List.mem_singleton] at hmem
        exact hmem ▸ ht
    | escaped d =>
        rw [Token.render, List.mem_cons] at hmem
        rcases hmem with rfl | hmem
        · exact absurd rfl hb
        · rw [(hexByte_number d).2 b hmem] at hx
          cases hx
  · exact fun ht => ⟨.char b, ht, List.mem_singleton_self b⟩

/-! ## What `escape` returns -/

/-- A byte as `escape` writes it. -/
def escapeToken (reserved unreserved : String) (b : UInt8) : Token :=
  if (unreservedChar b || oneOf unreserved b) && !oneOf reserved b then .char b
  else .escaped b

theorem escapeToken_value (reserved unreserved : String) (b : UInt8) :
    (escapeToken reserved unreserved b).value = b := by
  unfold escapeToken
  split_ifs <;> rfl

theorem map_value_escapeToken (reserved unreserved : String) (s : Bytes) :
    (s.map (escapeToken reserved unreserved)).map Token.value = s := by
  rw [List.map_map]
  exact (List.map_congr_left fun b _ => escapeToken_value _ _ b).trans
    (List.map_id s)

/-- Escaped strings are made of tokens, if no character of an escaped byte is
reserved. -/
theorem escape_eq_render {reserved : String}
    (hr : ∀ b, oneOf reserved b = true → b ≠ 0x25 ∧ isXDigit b = false)
    (s : Bytes) (unreserved : String) :
    escape s reserved unreserved =
      render (s.map (escapeToken reserved unreserved)) := by
  have hplain : ∀ t : Bytes, (∀ b ∈ t, oneOf reserved b = false) →
      t.flatMap (fun b => if oneOf reserved b then (esc [[b]]).getD [b]
        else [b]) = t := by
    intro t ht
    induction t with
    | nil => rfl
    | cons b t ih =>
        rw [List.flatMap_cons, if_neg (by simp [ht b List.mem_cons_self]),
          ih fun d hd => ht d (List.mem_cons_of_mem b hd)]
        rfl
  have hescaped : ∀ b : UInt8, ∀ d ∈ (0x25 :: hexByte b : Bytes),
      oneOf reserved d = false := by
    intro b d hd
    rw [← Bool.not_eq_true]
    intro hres
    rcases List.mem_cons.mp hd with rfl | hd
    · exact (hr _ hres).1 rfl
    · exact absurd ((hexByte_number b).2 d hd) (by simp [(hr d hres).2])
  have hboth : escape s reserved unreserved =
      (s.flatMap fun b => if !(unreservedChar b || oneOf unreserved b) then
          (esc [[b]]).getD [b] else [b]).flatMap fun b =>
        if oneOf reserved b then (esc [[b]]).getD [b] else [b] := by
    unfold escape
    split_ifs with hempty
    · subst hempty
      rw [gsub_one]
      exact (hplain _ fun b _ => rfl).symm
    · rw [gsub_one, gsub_one]
  rw [hboth, List.flatMap_assoc, render, List.flatMap_map]
  congr 1
  funext b
  by_cases hun : (unreservedChar b || oneOf unreserved b) = true
  · by_cases hres : oneOf reserved b = true
    · simp [hun, hres, escapeToken, esc, Token.render]
    · simp [hun, hres, escapeToken, Token.render]
  · have hesc := hplain _ (hescaped b)
    simpa [hun, escapeToken, esc, Token.render] using hesc

/-!
## The parts of a formatted URI

The characters that mark off the parts of a URI do not occur in escaped
strings, so the fragment, the query, the path and the authority are found where
they have been put.
-/

/-! ### Characters that are always escaped -/

/-- A character that `escape` does not leave and that no escaped byte is written
with. -/
def Marks (unreserved : String) (b : UInt8) : Prop :=
  b ≠ 0x25 ∧ isXDigit b = false ∧ unreservedChar b = false ∧
    oneOf unreserved b = false

instance (unreserved : String) (b : UInt8) : Decidable (Marks unreserved b) :=
  inferInstanceAs (Decidable (_ ∧ _ ∧ _ ∧ _))

/-- The lists of reserved characters that are used. -/
theorem reserved_ok (r : String) (hr : r ∈ ["", "&=", "&", "/"]) (b : UInt8)
    (hb : oneOf r b = true) : b ≠ 0x25 ∧ isXDigit b = false := by
  revert b
  simp only [List.mem_cons, List.not_mem_nil, or_false] at hr
  rcases hr with rfl | rfl | rfl | rfl <;> exact forall_byte (by decide)

theorem token_notMem {b : UInt8} {unreserved : String} (hb : Marks unreserved b)
    (reserved : String) (s : Bytes) :
    .char b ∉ s.map (escapeToken reserved unreserved) := by
  intro hmem
  obtain ⟨d, -, hd⟩ := List.mem_map.mp hmem
  unfold escapeToken at hd
  split_ifs at hd with hun
  cases hd
  simp [hb.2.2.1, hb.2.2.2] at hun

theorem escape_notMem {b : UInt8} {unreserved r : String}
    (hb : Marks unreserved b) (hr : r ∈ ["", "&=", "&", "/"]) (s : Bytes) :
    b ∉ escape s r unreserved := by
  rw [escape_eq_render (reserved_ok r hr), mem_render hb.1 hb.2.1]
  exact token_notMem hb r s

theorem proper_escape (reserved : String) {unreserved : String}
    (hun : oneOf unreserved 0x25 = false) (s : Bytes) :
    Proper (s.map (escapeToken reserved unreserved)) := by
  intro hmem
  obtain ⟨d, -, hd⟩ := List.mem_map.mp hmem
  unfold escapeToken at hd
  split_ifs at hd with hplain
  cases hd
  have hpercent : unreservedChar 0x25 = false := by decide
  simp [hun, hpercent] at hplain

/-! ### Joined strings -/

section Concat

variable {α : Type}

@[simp] theorem concat_nil (sep : List α) : concat sep [] = [] := rfl

@[simp] theorem concat_singleton (sep x : List α) : concat sep [x] = x :=
  List.append_nil x

@[simp] theorem concat_cons_cons (sep x y : List α) (l : List (List α)) :
    concat sep (x :: y :: l) = x ++ (sep ++ concat sep (y :: l)) := rfl

theorem concat_notMem {a : α} {sep : List α} {l : List (List α)}
    (hsep : a ∉ sep) (hl : ∀ x ∈ l, a ∉ x) : a ∉ concat sep l := by
  intro hmem
  obtain ⟨x, hx, ha⟩ := List.mem_flatten.mp hmem
  clear hmem
  induction l with
  | nil => cases hx
  | cons y l ih =>
      cases l with
      | nil => exact hl x hx ha
      | cons z l =>
          rw [List.intersperse_cons_cons, List.mem_cons, List.mem_cons] at hx
          rcases hx with rfl | rfl | hx
          · exact hl x List.mem_cons_self ha
          · exact hsep ha
          · exact ih (fun w hw => hl w (List.mem_cons_of_mem y hw)) hx

theorem render_concat (sep : List Token) (l : List (List Token)) :
    render (concat sep l) = concat (render sep) (l.map render) := by
  induction l with
  | nil => rfl
  | cons x l ih =>
      cases l with
      | nil => simp
      | cons y l =>
          rw [concat_cons_cons, render_append, render_append, ih]
          rfl

end Concat

/-! ### The parts -/

/-- Everything that `format` writes before the query. -/
def formatFront (t : Uri Args) : Bytes :=
  (t.scheme.elim [] fun s => escape s "" "" ++ lit ":") ++ formatAuthority t ++
    formatPath t

section Parts

variable (t : Uri Args) {b : UInt8}

theorem elim_notMem {α : Type} {o : Option α} {f : α → Bytes}
    (h : ∀ s, b ∉ f s) : b ∉ o.elim [] f := by
  cases o with
  | none => exact List.not_mem_nil
  | some s => exact h s

theorem authority_notMem (hb : Marks "" b)
    (hne : b ≠ 0x3A ∧ b ≠ 0x40 ∧ b ≠ 0x2F) : b ∉ formatAuthority t := by
  have hescape : ∀ s, b ∉ escape s "" "" := escape_notMem hb (by simp)
  have hcolon : b ∉ lit ":" := mt List.mem_singleton.mp hne.1
  have hat : b ∉ lit "@" := mt List.mem_singleton.mp hne.2.1
  have hslash : b ∉ lit "//" := by simpa [lit, Char.toUInt8] using hne.2.2
  have hmarked : ∀ o : Option Bytes,
      b ∉ o.elim [] fun s => lit ":" ++ escape s "" "" := fun o =>
    elim_notMem fun s => by simp [hcolon, hescape s]
  have huser : b ∉ t.user.elim [] fun s => escape s "" "" ++
      (t.pass.elim [] fun s => lit ":" ++ escape s "" "") ++ lit "@" :=
    elim_notMem fun s => by simp [hat, hescape s, hmarked t.pass]
  exact elim_notMem fun s => by
    simpa [hslash, hescape s, hmarked t.port] using huser

theorem path_notMem (hb : Marks "/" b) (hne : b ≠ 0x2F) :
    b ∉ formatPath t := by
  have hslash : b ∉ lit "/" := mt List.mem_singleton.mp hne
  have hb' : Marks "" b := ⟨hb.1, hb.2.1, hb.2.2.1, rfl⟩
  unfold formatPath
  split
  · refine concat_notMem hslash fun x hx => ?_
    obtain ⟨s, -, rfl⟩ := List.mem_map.mp hx
    exact escape_notMem hb' (by simp) s
  · exact elim_notMem fun s => escape_notMem hb (by simp) s

theorem front_notMem (hb : Marks "/" b)
    (hne : b ≠ 0x3A ∧ b ≠ 0x40 ∧ b ≠ 0x2F) : b ∉ formatFront t := by
  have hb' : Marks "" b := ⟨hb.1, hb.2.1, hb.2.2.1, rfl⟩
  have hcolon : b ∉ lit ":" := mt List.mem_singleton.mp hne.1
  have hscheme : b ∉ t.scheme.elim [] fun s => escape s "" "" ++ lit ":" :=
    elim_notMem fun s => by simp [hcolon, escape_notMem hb' (r := "")]
  simp [formatFront, hscheme, authority_notMem t hb' hne,
    path_notMem t hb hne.2.2]

theorem query_notMem (hb : Marks "" b)
    (hne : b ≠ 0x3F ∧ b ≠ 0x26 ∧ b ≠ 0x3D) : b ∉ formatQuery t := by
  have hmark : b ∉ lit "?" := mt List.mem_singleton.mp hne.1
  have hamp : b ∉ lit "&" := mt List.mem_singleton.mp hne.2.1
  have heq : b ∉ lit "=" := mt List.mem_singleton.mp hne.2.2
  unfold formatQuery
  split
  · rw [List.mem_append, not_or]
    refine ⟨hmark, concat_notMem hamp fun x hx => ?_⟩
    obtain ⟨kv, -, rfl⟩ := List.mem_map.mp hx
    simp [formatArg, heq, escape_notMem hb (r := "&="),
      escape_notMem hb (r := "&")]
  · exact elim_notMem fun s => by simp [hmark, escape_notMem hb (r := "")]

theorem query_head : (formatQuery t).head?.all (· == 0x3F) := by
  unfold formatQuery
  split
  · rfl
  · cases t.query with
    | none => rfl
    | some s => rfl

theorem fragment_head :
    (t.fragment.elim [] fun s => lit "#" ++ escape s "" "").head?.all
      (· == 0x23) := by
  cases t.fragment with
  | none => rfl
  | some s => rfl

/-- The fragment and the query are found where they have been put. -/
theorem takeOut_format :
    (takeOut (restPattern '#') (format t)).1 =
        formatFront t ++ formatQuery t ∧
      takeOut (restPattern '?') (formatFront t ++ formatQuery t) =
        (formatFront t,
          (formatQuery t).head?.map fun _ => (formatQuery t).tail) := by
  have hhash : ('#'.toUInt8 : UInt8) ∉ formatFront t ++ formatQuery t := by
    rw [List.mem_append, not_or]
    exact ⟨front_notMem t (by decide) (by decide),
      query_notMem t (by decide) (by decide)⟩
  have hquestion : ('?'.toUInt8 : UInt8) ∉ formatFront t :=
    front_notMem t (by decide) (by decide)
  constructor
  · have hformat : format t = (formatFront t ++ formatQuery t) ++
        t.fragment.elim [] fun s => lit "#" ++ escape s "" "" := rfl
    rw [hformat, takeOut_marked hhash (fragment_head t)]
  · exact takeOut_marked hquestion (query_head t)

end Parts

end LuaAttic.Http.Uri
