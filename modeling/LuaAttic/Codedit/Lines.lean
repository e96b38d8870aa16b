import LuaAttic.Codedit.Str

/-!
# Lines of a text with mixed terminators

A terminator is `\n`, `\r` or `\r\n`.  The module says what a well-formed list
of lines is, how the functions of `codedit_str.lua` that add, strip and look
for terminators act on such lines, and what the iteration of `str.lines` cuts
a string into.
-/

namespace LuaAttic.Codedit

open LuaAttic.Lua Str

/-! ## Plain text, terminators and lines -/

/-- Text without any terminator byte. -/
def Plain (s : Bytes) : Prop := ∀ c ∈ s, isTermByte c = false

/-- One of the three line terminators. -/
def IsTerminator (t : Bytes) : Prop :=
  t = [LF] ∨ t = [CR] ∨ t = [CR, LF]

/-- Plain text followed by exactly one terminator. -/
def TerminatedLine (s : Bytes) : Prop :=
  ∃ body term, s = body ++ term ∧ Plain body ∧ IsTerminator term

/-- A string with at most one terminator, at its end. -/
def AtMostOneTerminator (s : Bytes) : Prop := Plain s ∨ TerminatedLine s

/-- The convention for storing lines: each line ends in its own terminator,
except the last one, which has none. -/
def WellFormed (lines : List Bytes) : Prop :=
  ∃ init last, lines = init ++ [last] ∧
    (∀ l ∈ init, TerminatedLine l) ∧ Plain last

instance (s : Bytes) : Decidable (Plain s) :=
  List.decidableBAll _ s

theorem plain_nil : Plain [] := by
  intro c hc
  cases hc

theorem plain_append {s t : Bytes} :
    Plain (s ++ t) ↔ Plain s ∧ Plain t := by
  simp only [Plain, List.mem_append]
  constructor
  · intro h
    exact ⟨fun c hc => h c (Or.inl hc), fun c hc => h c (Or.inr hc)⟩
  · rintro ⟨hs, ht⟩ c (hc | hc)
    · exact hs c hc
    · exact ht c hc

theorem Plain.of_subset {s t : Bytes} (ht : Plain t) (h : ∀ c ∈ s, c ∈ t) :
    Plain s :=
  fun c hc => ht c (h c hc)

theorem Plain.sub {s : Bytes} (hs : Plain s) (i j : Int) : Plain (sub s i j) :=
  hs.of_subset fun _ => mem_of_mem_sub

theorem Plain.subFrom {s : Bytes} (hs : Plain s) (i : Int) :
    Plain (subFrom s i) :=
  hs.of_subset fun _ => mem_of_mem_subFrom

theorem plain_rep {s : Bytes} (hs : Plain s) (n : Int) : Plain (rep s n) :=
  hs.of_subset fun _ => mem_rep

theorem IsTerminator.ne_nil {t : Bytes} (h : IsTerminator t) : t ≠ [] := by
  rcases h with rfl | rfl | rfl <;> simp

theorem IsTerminator.isTermByte {t : Bytes} (h : IsTerminator t) :
    ∀ c ∈ t, isTermByte c = true := by
  rcases h with rfl | rfl | rfl <;> simp [Str.isTermByte]

theorem IsTerminator.hasterm {t : Bytes} (h : IsTerminator t) (s : Bytes) :
    hasterm (s ++ t) = true := by
  rcases h with rfl | rfl | rfl <;> simp [Str.hasterm, Str.isTermByte]

theorem Plain.hasterm {s : Bytes} (h : Plain s) : hasterm s = false := by
  unfold Str.hasterm
  cases hlast : s.getLast? with
  | none => rfl
  | some c => exact h c (List.mem_of_getLast? hlast)

theorem TerminatedLine.hasterm {s : Bytes} (h : TerminatedLine s) :
    hasterm s = true := by
  obtain ⟨body, term, rfl, -, hterm⟩ := h
  exact hterm.hasterm body

theorem TerminatedLine.ne_nil {s : Bytes} (h : TerminatedLine s) : s ≠ [] := by
  obtain ⟨body, term, rfl, -, hterm⟩ := h
  simp [hterm.ne_nil]

/-! ## Adding, stripping and finding a terminator -/

theorem rdropWhile_plain {s : Bytes} (h : Plain s) :
    s.rdropWhile isTermByte = s := by
  rw [List.rdropWhile_eq_self_iff]
  intro hne
  simp [h _ (List.getLast_mem hne)]

theorem rdropWhile_append_terms (s : Bytes) {t : Bytes}
    (ht : ∀ c ∈ t, isTermByte c = true) :
    (s ++ t).rdropWhile isTermByte = s.rdropWhile isTermByte := by
  induction t using List.reverseRecOn with
  | nil => simp
  | append_singleton t c ih =>
      rw [← List.append_assoc, List.rdropWhile_concat_pos _ _ _ (ht c (by simp))]
      exact ih fun d hd => ht d (by simp [hd])

theorem rdropWhile_body_term {body term : Bytes} (hbody : Plain body)
    (hterm : IsTerminator term) :
    (body ++ term).rdropWhile isTermByte = body := by
  rw [rdropWhile_append_terms body hterm.isTermByte, rdropWhile_plain hbody]

theorem removeTerm_plain {s : Bytes} (h : Plain s) : removeTerm s = s := by
  simp [removeTerm, h.hasterm]

theorem removeTerm_body_term {body term : Bytes} (hbody : Plain body)
    (hterm : IsTerminator term) : removeTerm (body ++ term) = body := by
  simp [removeTerm, hterm.hasterm, rdropWhile_body_term hbody hterm]

theorem addTerm_plain {s : Bytes} (h : Plain s) (term : Bytes) :
    addTerm s term = s ++ term := by
  simp [addTerm, h.hasterm]

theorem addTerm_terminated {s : Bytes} (h : TerminatedLine s) (term : Bytes) :
    addTerm s term = s := by
  simp [addTerm, h.hasterm]

theorem termChar_body_term {body term : Bytes} (hbody : Plain body)
    (hterm : IsTerminator term) : termChar (body ++ term) = body.length + 1 := by
  simp [termChar, rdropWhile_body_term hbody hterm]

theorem termChar_pos (s : Bytes) : 1 ≤ termChar s := by
  unfold termChar
  omega

theorem termChar_le (s : Bytes) : termChar s ≤ s.length + 1 := by
  have h := (List.rdropWhile_prefix isTermByte s).length_le
  unfold termChar
  omega

theorem plain_removeTerm {s : Bytes} (h : AtMostOneTerminator s) :
    Plain (removeTerm s) := by
  rcases h with h | ⟨body, term, rfl, hbody, hterm⟩
  · rwa [removeTerm_plain h]
  · rwa [removeTerm_body_term hbody hterm]

theorem terminated_addTerm {s term : Bytes} (h : AtMostOneTerminator s)
    (hterm : IsTerminator term) : TerminatedLine (addTerm s term) := by
  rcases h with h | h
  · rw [addTerm_plain h]
    exact ⟨s, term, rfl, h, hterm⟩
  · rwa [addTerm_terminated h]

/-- The text of a line without the terminator run that ends it. -/
def contents (s : Bytes) : Bytes := s.rdropWhile isTermByte

theorem contents_plain {s : Bytes} (h : Plain s) : contents s = s :=
  rdropWhile_plain h

theorem contents_body_term {body term : Bytes} (hbody : Plain body)
    (hterm : IsTerminator term) : contents (body ++ term) = body :=
  rdropWhile_body_term hbody hterm

/-- A plain prefix belongs to the contents of a line. -/
theorem prefix_contents_append {s1 : Bytes} (h : Plain s1) (s2 : Bytes) :
    s1 <+: contents (s1 ++ s2) := by
  induction s2 using List.reverseRecOn with
  | nil =>
      simp only [List.append_nil, contents_plain h, List.prefix_rfl]
  | append_singleton s2 c ih =>
      rw [contents, ← List.append_assoc]
      by_cases hc : isTermByte c = true
      · rw [List.rdropWhile_concat_pos _ _ _ hc]
        exact ih
      · rw [List.rdropWhile_concat_neg _ _ _ hc, List.append_assoc]
        exact List.prefix_append s1 _

theorem contents_removeTerm (s : Bytes) :
    contents (removeTerm s) = contents s := by
  unfold removeTerm contents
  split
  · exact List.rdropWhile_idempotent _ _
  · rfl

theorem take_termChar (s : Bytes) :
    s.take (termChar s - 1).toNat = contents s := by
  have hlen : (termChar s - 1).toNat = (contents s).length := by
    simp [termChar, contents]
  rw [hlen]
  exact (List.prefix_iff_eq_take.mp (List.rdropWhile_prefix isTermByte s)).symm

theorem plain_contents {s : Bytes} (h : AtMostOneTerminator s) :
    Plain (contents s) := by
  rcases h with h | ⟨body, term, rfl, hbody, hterm⟩
  · rwa [contents_plain h]
  · rwa [contents_body_term hbody hterm]

/-- A piece of a line that ends before the terminator is plain. -/
theorem plain_sub_before {s : Bytes} (h : AtMostOneTerminator s) {i j : Int}
    (hi : 1 ≤ i) (hj : 1 ≤ j) (hle : j ≤ termChar s) :
    Plain (sub s i (j - 1)) := by
  apply (plain_contents h).of_subset
  intro c hc
  rw [sub_eq_take_drop s hi (by omega)] at hc
  have hmem := List.mem_of_mem_drop hc
  rw [← take_termChar s]
  exact (List.take_prefix_take_left (by omega)).subset hmem

/-- A line cut at a position before the terminator keeps its terminator. -/
theorem atMostOne_subFrom {s : Bytes} (h : AtMostOneTerminator s) {i : Int}
    (hi : 1 ≤ i) (hle : i ≤ termChar s) :
    AtMostOneTerminator (subFrom s i) := by
  rcases h with h | ⟨body, term, rfl, hbody, hterm⟩
  · exact Or.inl (h.subFrom i)
  · right
    rw [termChar_body_term hbody hterm] at hle
    rw [subFrom_drop _ hi, List.drop_append_of_le_length (by omega)]
    exact ⟨_, term, rfl, hbody.of_subset fun _ => List.mem_of_mem_drop, hterm⟩

theorem atMostOne_append {s t : Bytes} (hs : Plain s)
    (ht : AtMostOneTerminator t) : AtMostOneTerminator (s ++ t) := by
  rcases ht with ht | ⟨body, term, rfl, hbody, hterm⟩
  · exact Or.inl (plain_append.mpr ⟨hs, ht⟩)
  · exact Or.inr ⟨s ++ body, term, by simp, plain_append.mpr ⟨hs, hbody⟩,
      hterm⟩

/-- The terminator run that ends a line. -/
def lineTerm (s : Bytes) : Bytes := s.drop (contents s).length

theorem contents_append_lineTerm (s : Bytes) : contents s ++ lineTerm s = s := by
  obtain ⟨t, ht⟩ := List.rdropWhile_prefix isTermByte s
  have hcontents : s = contents s ++ t := ht.symm
  have hterm : lineTerm s = t := by
    unfold lineTerm
    nth_rewrite 2 [hcontents]
    exact List.drop_left
  rw [hterm, ← hcontents]

theorem lineTerm_body_term {body term : Bytes} (hbody : Plain body)
    (hterm : IsTerminator term) : lineTerm (body ++ term) = term := by
  rw [lineTerm, contents_body_term hbody hterm, List.drop_left]

/-! ## Well-formed lists of lines -/

theorem WellFormed.ne_nil {lines : List Bytes} (h : WellFormed lines) :
    lines ≠ [] := by
  obtain ⟨init, last, rfl, -⟩ := h
  simp

theorem wellFormed_singleton {l : Bytes} : WellFormed [l] ↔ Plain l := by
  constructor
  · rintro ⟨init, last, heq, -, hlast⟩
    have hinit : init = [] := by
      have hlen := congrArg List.length heq
      simp only [List.length_append, List.length_singleton] at hlen
      exact List.eq_nil_of_length_eq_zero (by omega)
    subst hinit
    simp only [List.nil_append, List.cons.injEq, and_true] at heq
    rwa [heq]
  · intro h
    exact ⟨[], l, rfl, by simp, h⟩

/-- What is before a non-empty well-formed rest are terminated lines. -/
theorem wellFormed_append {pre post : List Bytes} (hpost : post ≠ []) :
    WellFormed (pre ++ post) ↔
      (∀ l ∈ pre, TerminatedLine l) ∧ WellFormed post := by
  constructor
  · rintro ⟨init, last, heq, hinit, hlast⟩
    have hsplit := List.dropLast_concat_getLast hpost
    rw [← hsplit, ← List.append_assoc] at heq
    obtain ⟨rfl, hl⟩ := List.append_inj' heq rfl
    simp only [List.cons.injEq, and_true] at hl
    refine ⟨fun l hl' => hinit l (List.mem_append_left _ hl'), ?_⟩
    refine ⟨post.dropLast, last, ?_, ?_, hlast⟩
    · rw [← hl, hsplit]
    · intro l hl'
      exact hinit l (List.mem_append_right _ hl')
  · rintro ⟨hpre, init, last, rfl, hinit, hlast⟩
    refine ⟨pre ++ init, last, by simp, ?_, hlast⟩
    intro l hl
    rcases List.mem_append.mp hl with hl | hl
    · exact hpre l hl
    · exact hinit l hl

theorem wellFormed_cons {l : Bytes} {post : List Bytes} (hpost : post ≠ []) :
    WellFormed (l :: post) ↔ TerminatedLine l ∧ WellFormed post := by
  rw [← List.singleton_append, wellFormed_append hpost]
  simp

/-- Every line of a well-formed list has at most one terminator. -/
theorem WellFormed.atMostOne {lines : List Bytes} (h : WellFormed lines)
    {l : Bytes} (hl : l ∈ lines) : AtMostOneTerminator l := by
  obtain ⟨init, last, rfl, hinit, hlast⟩ := h
  rcases List.mem_append.mp hl with hl | hl
  · exact Or.inr (hinit l hl)
  · rw [List.mem_singleton] at hl
    exact Or.inl (hl ▸ hlast)

theorem terminatedLine_iff {s : Bytes} :
    TerminatedLine s ↔ Plain (contents s) ∧ IsTerminator (lineTerm s) := by
  constructor
  · rintro ⟨body, term, rfl, hbody, hterm⟩
    rw [contents_body_term hbody hterm, lineTerm_body_term hbody hterm]
    exact ⟨hbody, hterm⟩
  · rintro ⟨hbody, hterm⟩
    exact ⟨_, _, (contents_append_lineTerm s).symm, hbody, hterm⟩

theorem wellFormed_iff {lines : List Bytes} :
    WellFormed lines ↔ lines ≠ [] ∧ (∀ l ∈ lines.dropLast, TerminatedLine l) ∧
      ∀ l ∈ lines.getLast?, Plain l := by
  constructor
  · rintro ⟨init, last, rfl, hinit, hlast⟩
    exact ⟨by simp, by simpa using hinit, by simpa using hlast⟩
  · rintro ⟨hne, hinit, hlast⟩
    exact ⟨lines.dropLast, lines.getLast hne,
      (List.dropLast_concat_getLast hne).symm, hinit,
      hlast _ (List.getLast?_eq_some_getLast hne)⟩

instance (t : Bytes) : Decidable (IsTerminator t) :=
  inferInstanceAs (Decidable (_ ∨ _ ∨ _))

instance (s : Bytes) : Decidable (TerminatedLine s) :=
  decidable_of_iff _ terminatedLine_iff.symm

instance (lines : List Bytes) : Decidable (WellFormed lines) :=
  decidable_of_iff _ wellFormed_iff.symm

/-- In a well-formed list an empty line can only be the last one. -/
theorem WellFormed.nil_notMem_of_append {pre post : List Bytes}
    (h : WellFormed (pre ++ post)) (hpost : post ≠ []) : [] ∉ pre := by
  intro hmem
  exact (((wellFormed_append hpost).mp h).1 [] hmem).ne_nil rfl

/-! ## Cutting a string into lines -/

/-- A string is plain, or it starts with a line; a `\r` and the `\n` that
follows it are one terminator. -/
theorem plain_or_line (s : Bytes) :
    Plain s ∨ ∃ body term rest, s = body ++ term ++ rest ∧ Plain body ∧
      IsTerminator term ∧ (term = [CR] → rest.head? ≠ some LF) := by
  have hbody : Plain (s.takeWhile fun c => !isTermByte c) := by
    intro c hc
    simpa using List.mem_takeWhile_imp hc
  have hsplit := List.takeWhile_append_dropWhile
    (p := fun c => !isTermByte c) (l := s)
  cases hrest : s.dropWhile fun c => !isTermByte c with
  | nil =>
      left
      rw [hrest, List.append_nil] at hsplit
      rwa [hsplit] at hbody
  | cons c rest =>
      right
      rw [hrest] at hsplit
      have hc : isTermByte c = true := by
        have hhead := List.head?_dropWhile_not (fun c => !isTermByte c) s
        rw [hrest] at hhead
        simpa using hhead
      have hcases : c = CR ∨ c = LF := by
        simpa [isTermByte] using hc
      clear hrest
      generalize (s.takeWhile fun c => !isTermByte c) = body at hsplit hbody
      subst hsplit
      rcases hcases with rfl | rfl
      · by_cases hlf : rest.head? = some LF
        · obtain ⟨rest', rfl⟩ := List.head?_eq_some_iff.mp hlf
          exact ⟨body, [CR, LF], rest', by simp, hbody,
            Or.inr (Or.inr rfl), by simp⟩
        · exact ⟨body, [CR], rest, by simp, hbody,
            Or.inr (Or.inl rfl), fun _ => hlf⟩
      · exact ⟨body, [LF], rest, by simp, hbody, Or.inl rfl,
          by simp [LF, CR]⟩

/-- Induction over the lines of a string. -/
@[elab_as_elim]
theorem lineInduction {motive : Bytes → Prop}
    (plain : ∀ s, Plain s → motive s)
    (line : ∀ body term rest, Plain body → IsTerminator term →
      (term = [CR] → rest.head? ≠ some LF) → motive rest →
      motive (body ++ term ++ rest))
    (s : Bytes) : motive s := by
  induction hn : s.length using Nat.strong_induction_on generalizing s with
  | _ n ih =>
      rcases plain_or_line s with h | ⟨body, term, rest, rfl, hbody, hterm, hcr⟩
      · exact plain s h
      · refine line body term rest hbody hterm hcr (ih rest.length ?_ rest rfl)
        have hpos := List.length_pos_of_ne_nil hterm.ne_nil
        simp only [List.length_append] at hn
        omega

theorem takeWhile_plain_append {body rest : Bytes} (hbody : Plain body)
    (hrest : ∀ c ∈ rest.head?, isTermByte c = true) :
    (body ++ rest).takeWhile (fun c => !isTermByte c) = body := by
  rw [List.takeWhile_append_of_pos (by
    intro c hc
    simp [hbody c hc])]
  cases rest with
  | nil => simp
  | cons c rest => simp [hrest c (by simp)]

theorem matchLine_plain {s : Bytes} (h : Plain s) : matchLine s = s.length := by
  have hbody := @takeWhile_plain_append s [] h (by simp)
  rw [List.append_nil] at hbody
  simp [matchLine, hbody]

theorem matchLine_line {body term : Bytes} (rest : Bytes) (hbody : Plain body)
    (hterm : IsTerminator term) (hcr : term = [CR] → rest.head? ≠ some LF) :
    matchLine (body ++ term ++ rest) = body.length + term.length := by
  have htake : (body ++ term ++ rest).takeWhile (fun c => !isTermByte c) =
      body := by
    rw [List.append_assoc]
    apply takeWhile_plain_append hbody
    intro c hc
    rw [List.head?_append_of_ne_nil _ hterm.ne_nil] at hc
    exact hterm.isTermByte c (List.mem_of_mem_head? hc)
  simp only [matchLine, htake]
  rw [List.append_assoc, List.drop_left]
  rcases hterm with rfl | rfl | rfl
  · simp [CR, LF]
  · have hlf : rest.head? ≠ some LF := hcr rfl
    simp [hlf]
  · simp

/-! ## The iteration of `str.lines` -/

theorem matchLine_pos {s : Bytes} (hs : s ≠ []) : 1 ≤ matchLine s := by
  rcases plain_or_line s with h | ⟨body, term, rest, rfl, hbody, hterm, hcr⟩
  · rw [matchLine_plain h]
    exact List.length_pos_of_ne_nil hs
  · rw [matchLine_line rest hbody hterm hcr]
    have hpos := List.length_pos_of_ne_nil hterm.ne_nil
    omega

/-- The iteration moves forward. -/
theorem lt_of_nextLine {s : Bytes} {i j i' : Int} (hi : 1 ≤ i)
    (h : nextLine s i = some (j, i')) : i < j ∧ i ≤ i' := by
  unfold nextLine at h
  split at h
  · cases h
  next hle =>
    split at h
    · split at h
      · simp only [Option.some.injEq, Prod.mk.injEq] at h
        omega
      · cases h
    next hne =>
      simp only [Option.some.injEq, Prod.mk.injEq] at h
      have hdrop : s.drop (i - 1).toNat ≠ [] := by
        rw [ne_eq, List.drop_eq_nil_iff]
        omega
      have hpos := matchLine_pos hdrop
      omega

theorem linesFrom_of_none {s : Bytes} {i : Int} (h : nextLine s i = none)
    (fuel : ℕ) : linesFrom s fuel i = [] := by
  cases fuel with
  | zero => rfl
  | succ fuel => simp [linesFrom, h]

theorem linesFrom_of_some {s : Bytes} {i : Int} {p : Int × Int}
    (h : nextLine s i = some p) (fuel : ℕ) :
    linesFrom s (fuel + 1) i = p :: linesFrom s fuel p.1 := by
  simp [linesFrom, h]

/-- Fuel for the bytes left is enough. -/
theorem linesFrom_fuel (s : Bytes) {f g : ℕ} {i : Int} (hi : 1 ≤ i)
    (hf : s.length + 2 - i ≤ f) (hg : s.length + 2 - i ≤ g) :
    linesFrom s f i = linesFrom s g i := by
  induction f generalizing g i with
  | zero =>
      have hnone : nextLine s i = none := if_pos (by omega)
      rw [linesFrom_of_none hnone, linesFrom_of_none hnone]
  | succ f ih =>
      cases h : nextLine s i with
      | none => rw [linesFrom_of_none h, linesFrom_of_none h]
      | some p =>
          have hlt := (lt_of_nextLine hi h).1
          cases g with
          | zero =>
              have hnone : nextLine s i = none := if_pos (by omega)
              rw [hnone] at h
              cases h
          | succ g =>
              rw [linesFrom_of_some h, linesFrom_of_some h,
                ih (g := g) (by omega) (by omega) (by omega)]

theorem bounds_of_mem_linesFrom {s : Bytes} {fuel : ℕ} {i : Int}
    {p : Int × Int} (hi : 1 ≤ i) (hp : p ∈ linesFrom s fuel i) :
    1 ≤ p.1 ∧ 1 ≤ p.2 := by
  induction fuel generalizing i with
  | zero => cases hp
  | succ fuel ih =>
      cases h : nextLine s i with
      | none =>
          rw [linesFrom_of_none h] at hp
          cases hp
      | some q =>
          have hlt := lt_of_nextLine hi h
          rw [linesFrom_of_some h] at hp
          rcases List.mem_cons.mp hp with rfl | hp
          · omega
          · exact ih (by omega) hp

theorem hasterm_append {p : Bytes} (hp : hasterm p = true) (rest : Bytes) :
    hasterm (p ++ rest) = true ↔ rest.length = 0 ∨ hasterm rest = true := by
  rcases rest.eq_nil_or_concat' with rfl | ⟨init, c, rfl⟩
  · simpa using hp
  · rw [← List.append_assoc]
    simp [hasterm]

/-- A pair of indices moved `n` bytes to the right. -/
def shiftPair (n : ℕ) (q : Int × Int) : Int × Int := (n + q.1, n + q.2)

/-- Past a terminated prefix the iteration is that of the rest. -/
theorem nextLine_shift {p : Bytes} (hp : hasterm p = true) (rest : Bytes)
    {i : Int} (hi : 1 ≤ i) :
    nextLine (p ++ rest) (p.length + i) =
      (nextLine rest i).map (shiftPair p.length) := by
  have hpne : p.length ≠ 0 := by
    intro h
    rw [List.eq_nil_of_length_eq_zero h] at hp
    cases hp
  unfold nextLine
  by_cases hbeyond : i > rest.length + 1
  · rw [if_pos hbeyond, if_pos (by simp only [List.length_append]; omega)]
    rfl
  · rw [if_neg hbeyond, if_neg (by simp only [List.length_append]; omega)]
    by_cases hend : i = rest.length + 1
    · rw [if_pos hend, if_pos (by simp only [List.length_append]; omega)]
      have hiff : ((p ++ rest).length = 0 ∨ hasterm (p ++ rest) = true) ↔
          (rest.length = 0 ∨ hasterm rest = true) := by
        rw [hasterm_append hp, List.length_append]
        exact or_iff_right (by omega)
      by_cases hempty : rest.length = 0 ∨ hasterm rest = true
      · rw [if_pos hempty, if_pos (hiff.mpr hempty)]
        simp [shiftPair, add_assoc]
      · rw [if_neg hempty, if_neg (mt hiff.mp hempty)]
        rfl
    · rw [if_neg hend, if_neg (by simp only [List.length_append]; omega)]
      have hdrop : (p ++ rest).drop (p.length + i - 1).toNat =
          rest.drop (i - 1).toNat := by
        have hidx : (p.length + i - 1).toNat = p.length + (i - 1).toNat := by
          omega
        rw [hidx, List.drop_append]
        simp
      rw [hdrop, Option.map_some, shiftPair, add_assoc]

theorem linesFrom_shift {p : Bytes} (hp : hasterm p = true) (rest : Bytes)
    (fuel : ℕ) {i : Int} (hi : 1 ≤ i) :
    linesFrom (p ++ rest) fuel (p.length + i) =
      (linesFrom rest fuel i).map (shiftPair p.length) := by
  induction fuel generalizing i with
  | zero => rfl
  | succ fuel ih =>
      have hnext := nextLine_shift hp rest hi
      cases h : nextLine rest i with
      | none =>
          rw [h] at hnext
          rw [linesFrom_of_none hnext, linesFrom_of_none h]
          rfl
      | some q =>
          rw [h] at hnext
          rw [linesFrom_of_some hnext, linesFrom_of_some h, List.map_cons]
          congr 1
          exact ih (by have := lt_of_nextLine hi h; omega)

theorem sub_shift (p rest : Bytes) {i j : Int} (hi : 1 ≤ i) (hj : 1 ≤ j) :
    sub (p ++ rest) (p.length + i) (p.length + j - 1) = sub rest i (j - 1) := by
  rw [sub_eq_take_drop _ (by omega) (by omega),
    sub_eq_take_drop _ hi (by omega)]
  have htake : (p.length + j - 1).toNat = p.length + (j - 1).toNat := by omega
  have hdrop : (p.length + i - 1).toNat = p.length + (i - 1).toNat := by omega
  rw [htake, hdrop, List.take_append, List.drop_append]
  simp

/-- A plain string is its own only line. -/
theorem lineStrings_plain {s : Bytes} (h : Plain s) : lineStrings s = [s] := by
  by_cases hs : s = []
  · subst hs
    rfl
  · have hlen := List.length_pos_of_ne_nil hs
    have hfirst : nextLine s 1 = some (1 + (s.length : Int), 1) := by
      unfold nextLine
      rw [if_neg (by omega), if_neg (by omega)]
      simp [matchLine_plain h]
    have hsecond : nextLine s (1 + s.length) = none := by
      unfold nextLine
      rw [if_neg (by omega), if_pos (by omega), if_neg (by
        simp [h.hasterm, hs])]
    have hsub : sub s 1 (1 + s.length - 1) = s := by
      rw [sub_take s (by omega)]
      simp
    rw [lineStrings, lines, linesFrom_of_some hfirst,
      linesFrom_of_none hsecond, List.map_singleton, hsub]

/-- The first line of a string is cut off, the rest is cut in the same way. -/
theorem lineStrings_line {body term : Bytes} (rest : Bytes)
    (hbody : Plain body) (hterm : IsTerminator term)
    (hcr : term = [CR] → rest.head? ≠ some LF) :
    lineStrings (body ++ term ++ rest) = (body ++ term) :: lineStrings rest := by
  have hmatch := matchLine_line rest hbody hterm hcr
  have hp : hasterm (body ++ term) = true := hterm.hasterm body
  have hpos := List.length_pos_of_ne_nil hterm.ne_nil
  have hlen : (body ++ term).length = body.length + term.length :=
    List.length_append
  generalize hpdef : body ++ term = p at *
  have hfirst : nextLine (p ++ rest) 1 = some (1 + (p.length : Int), 1) := by
    unfold nextLine
    rw [if_neg (by simp only [List.length_append]; omega),
      if_neg (by simp only [List.length_append]; omega)]
    simp [hmatch, hlen]
  have hrest : linesFrom (p ++ rest) ((p ++ rest).length + 1) (1 + p.length) =
      (lines rest).map (shiftPair p.length) := by
    rw [add_comm (1 : Int), linesFrom_shift hp rest _ (by omega), lines,
      linesFrom_fuel rest (g := rest.length + 2) (by omega)
        (by simp only [List.length_append]; omega) (by omega)]
  have hsub : sub (p ++ rest) 1 (1 + p.length - 1) = p := by
    rw [sub_take _ (by omega)]
    simp
  simp only [lineStrings, lines]
  rw [linesFrom_of_some hfirst, hrest, List.map_cons, hsub, List.map_map]
  congr 1
  apply List.map_congr_left
  intro q hq
  obtain ⟨hj, hi⟩ := bounds_of_mem_linesFrom (by omega) hq
  exact sub_shift p rest hi hj

theorem lineStrings_ne_nil (s : Bytes) : lineStrings s ≠ [] := by
  induction s using lineInduction with
  | plain s h => simp [lineStrings_plain h]
  | line body term rest hbody hterm hcr ih =>
      rw [lineStrings_line rest hbody hterm hcr]
      exact List.cons_ne_nil _ _

/-- The lines of a string concatenate to the string. -/
theorem flatten_lineStrings (s : Bytes) : (lineStrings s).flatten = s := by
  induction s using lineInduction with
  | plain s h => simp [lineStrings_plain h]
  | line body term rest hbody hterm hcr ih =>
      rw [lineStrings_line rest hbody hterm hcr, List.flatten_cons, ih]

/-- The lines of a string are well formed. -/
theorem wellFormed_lineStrings (s : Bytes) : WellFormed (lineStrings s) := by
  induction s using lineInduction with
  | plain s h =>
      rw [lineStrings_plain h]
      exact wellFormed_singleton.mpr h
  | line body term rest hbody hterm hcr ih =>
      rw [lineStrings_line rest hbody hterm hcr,
        wellFormed_cons (lineStrings_ne_nil rest)]
      exact ⟨⟨body, term, rfl, hbody, hterm⟩, ih⟩

/-- Plain text before a string joins its first line. -/
theorem lineStrings_plain_append {s1 : Bytes} (h : Plain s1) (s : Bytes) :
    ∃ first rest, lineStrings s = first :: rest ∧
      lineStrings (s1 ++ s) = (s1 ++ first) :: rest := by
  rcases plain_or_line s with hs | ⟨body, term, rest, rfl, hbody, hterm, hcr⟩
  · exact ⟨s, [], lineStrings_plain hs,
      lineStrings_plain (plain_append.mpr ⟨h, hs⟩)⟩
  · refine ⟨body ++ term, lineStrings rest,
      lineStrings_line rest hbody hterm hcr, ?_⟩
    have hline := lineStrings_line rest (plain_append.mpr ⟨h, hbody⟩) hterm hcr
    simpa using hline

/-- Plain text after a string does not make a `\n` follow. -/
theorem head?_append_plain {rest s2 : Bytes} (h : Plain s2)
    (hrest : rest.head? ≠ some LF) : (rest ++ s2).head? ≠ some LF := by
  cases rest with
  | nil =>
      intro hhead
      exact absurd (h LF (List.mem_of_mem_head? hhead)) (by decide)
  | cons c rest => exact hrest

/-- Plain text after a string joins its last line. -/
theorem lineStrings_append_plain {s2 : Bytes} (h : Plain s2) (s : Bytes) :
    ∃ init last, lineStrings s = init ++ [last] ∧
      lineStrings (s ++ s2) = init ++ [last ++ s2] := by
  induction s using lineInduction with
  | plain s hs =>
      exact ⟨[], s, lineStrings_plain hs,
        lineStrings_plain (plain_append.mpr ⟨hs, h⟩)⟩
  | line body term rest hbody hterm hcr ih =>
      obtain ⟨init, last, hrest, happend⟩ := ih
      refine ⟨(body ++ term) :: init, last, ?_, ?_⟩
      · rw [lineStrings_line rest hbody hterm hcr, hrest, List.cons_append]
      · rw [List.append_assoc, lineStrings_line (rest ++ s2) hbody hterm
          fun heq => head?_append_plain h (hcr heq), happend, List.cons_append]

end LuaAttic.Codedit
