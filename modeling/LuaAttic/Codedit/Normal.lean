import LuaAttic.Codedit.Buffer
import LuaAttic.Codedit.Chars
import LuaAttic.Codedit.Tabs
import LuaAttic.Support.Fallible

/-!
# Normalizing a buffer (`codedit_normal.lua`)

Spaces past the end of a line are removed, the indentation is made again from tabs or
spaces, and the empty lines at the end of the text are removed or added.  Methods of a
buffer that are not in the sources are those of strings, for the text of a line without
its terminator.
-/

namespace LuaAttic.Codedit

open LuaAttic.Lua Str Tabs LuaAttic.Support
open MonadExcept (ofExcept)

/-! ## The text of a line -/

/-- `str.rtrim(s)` -/
def rtrim (s : Bytes) : Except Error Bytes := do
  match ← prevNonspaceChar s (s.length + 1) with
  | none => return []
  | some i =>
      match ← nextChar s i with
      | none => return s
      | some i => return sub s 1 (i - 1)

/-- `next_nonspace_col(line) or last_col(line)` -/
def indentCol (s : Bytes) : Except Error Int := do
  return (← nextNonspaceChar s 0).getD s.length

/-- The options of a buffer. -/
inductive EolSpaces
  | leave
  | remove
  deriving DecidableEq, Repr

inductive EofLines
  | leave
  | remove
  | ensure
  | number (n : Int)
  deriving DecidableEq, Repr

inductive ConvertIndent
  | tabs
  | spaces
  | leave
  deriving DecidableEq, Repr

structure Normalization where
  eolSpaces : EolSpaces := .remove
  eofLines : EofLines := .leave
  convertIndent : ConvertIndent := .tabs
  tabsize : Int
  deriving DecidableEq, Repr

namespace Buffer

/-- `self:line(line)` -/
def lineText (line : Int) : Program Buffer Bytes := do
  let b ← get
  ofExcept ((nonNil .nilIndex (b.lineAt line)).map removeTerm)

/-- `self:last_line()` -/
def lastLine (b : Buffer) : Int := b.lines.length

def isempty (line : Int) : Program Buffer Bool := do
  let b ← get
  return (← ofExcept (b.nextNonspaceChar line)).isNone

/-- The body for `n` lines from one on. -/
def forFrom (body : Int → Program Buffer Unit) : ℕ → Int → Program Buffer Unit
  | 0, _ => pure ()
  | n + 1, line => do
      body line
      forFrom body n (line + 1)

/-- `for line = 1, self:last_line() do` -/
def forLines (body : Int → Program Buffer Unit) : Program Buffer Unit := do
  let b ← get
  forFrom body b.lines.length 1

/-! ## The passes -/

def removeEolSpaces : Program Buffer Unit :=
  forLines fun line => do
    let s ← lineText line
    setline line (← ofExcept (rtrim s))

def ensureEofLine : Program Buffer Unit := do
  let b ← get
  let empty ← isempty b.lastLine
  (if empty then pure () else insertLine (b.lastLine + 1) [])

/-- The loop of `remove_eof_lines`, which removes one of so many lines each time. -/
def removeEofLoop : ℕ → Program Buffer Unit
  | 0 => pure ()
  | fuel + 1 => do
      let b ← get
      let empty ← isempty b.lastLine
      (if b.lastLine > 1 ∧ empty then do
          removeLine b.lastLine
          removeEofLoop fuel
        else pure ())

def removeEofLines : Program Buffer Unit := do
  let b ← get
  removeEofLoop b.lines.length

def convertIndentToTabs (tabsize : Int) : Program Buffer Unit :=
  forLines fun line => do
    let s ← lineText line
    let indentCol ← ofExcept (indentCol s)
    (if indentCol > 0 then
        let indentVcol := visualCol s indentCol tabsize
        let (tabs, spaces) := tabsAndSpaces 1 indentVcol tabsize
        setline line (rep [TAB] tabs ++ rep [SPACE] spaces ++ subFrom s indentCol)
      else pure ())

def convertIndentToSpaces (tabsize : Int) : Program Buffer Unit :=
  forLines fun line => do
    let s ← lineText line
    let indentCol ← ofExcept (indentCol s)
    (if indentCol > 0 then
        let indentVcol := visualCol s indentCol tabsize
        setline line (rep [SPACE] (indentVcol - 1) ++ subFrom s indentCol)
      else pure ())

/-- `for i = 1, self.eof_lines do` -/
def appendEofLines : ℕ → Program Buffer Unit
  | 0 => pure ()
  | n + 1 => do
      let b ← get
      insertLine (b.lastLine + 1) []
      appendEofLines n

def normalize (o : Normalization) : Program Buffer Unit := do
  (match o.eolSpaces with
    | .remove => removeEolSpaces
    | .leave => pure ())
  (match o.convertIndent with
    | .tabs => convertIndentToTabs o.tabsize
    | .spaces => convertIndentToSpaces o.tabsize
    | .leave => pure ())
  match o.eofLines with
  | .ensure => ensureEofLine
  | .remove => removeEofLines
  | .number n => do
      removeEofLines
      appendEofLines n.toNat
  | .leave => pure ()

end Buffer

/-!
## The text of a normalized line

Trimming at the right and making the indentation again keep the text between the first
and the last character that is not whitespace, and the visual column of the first one.
-/

/-! ### Characters that are not whitespace -/

/-- A string of whitespace. -/
def Blank (s : Bytes) : Prop := ∀ c ∈ s, isWhite c = true

variable {s v w d : Bytes} {c : UInt8}

/-- A line is blank, or there is a first character that is not whitespace. -/
theorem blank_or_first (s : Bytes) :
    Blank s ∨ ∃ w c d, s = w ++ c :: d ∧ Blank w ∧ isWhite c = false := by
  cases hd : s.dropWhile isWhite with
  | nil => exact Or.inl (List.dropWhile_eq_nil_iff.mp hd)
  | cons c d =>
      refine Or.inr ⟨s.takeWhile isWhite, c, d, ?_, ?_, ?_⟩
      · rw [← hd, List.takeWhile_append_dropWhile]
      · intro b hb
        exact List.mem_takeWhile_imp hb
      · have hne : s.dropWhile isWhite ≠ [] := hd ▸ List.cons_ne_nil c d
        have hnot := List.head_dropWhile_not isWhite hne
        simpa only [hd, List.head_cons, Bool.not_eq_true] using hnot

theorem blank_or_last (s : Bytes) :
    Blank s ∨ ∃ v c w, s = v ++ [c] ++ w ∧ Blank w ∧ isWhite c = false := by
  rcases blank_or_first s.reverse with h | ⟨w, c, d, h, hw, hc⟩
  · exact Or.inl fun b hb => h b (List.mem_reverse.mpr hb)
  · refine Or.inr ⟨d.reverse, c, w.reverse, ?_, fun b hb => hw b (List.mem_reverse.mp hb), hc⟩
    rw [← List.reverse_cons, ← List.reverse_append, ← h, List.reverse_reverse]

theorem nextNonspaceChar_blank (h : Blank s) : Str.nextNonspaceChar s 0 = .ok none := by
  obtain ⟨r, hr, hsome, -⟩ := gives_nextCharWhich (n := 0) (tests_isnonspace s)
    (Nat.lt_succ_self s.length)
  have hnext : Str.nextNonspaceChar s 0 = .ok r := hr
  cases r with
  | none => exact hnext
  | some j =>
      obtain ⟨m, c, -, -, hc, hblack, -⟩ := hsome j rfl
      rw [h c (List.mem_of_getElem? hc)] at hblack
      cases hblack

theorem nextNonspaceChar_first (hw : Blank w) (hc : isWhite c = false) (d : Bytes) :
    Str.nextNonspaceChar (w ++ c :: d) 0 = .ok (some (w.length + 1)) := by
  obtain ⟨r, hr, hsome, hnone⟩ := gives_nextCharWhich (n := 0) (tests_isnonspace (w ++ c :: d))
    (Nat.lt_succ_self (w ++ c :: d).length)
  have hnext : Str.nextNonspaceChar (w ++ c :: d) 0 = .ok r := hr
  have hget : (w ++ c :: d)[w.length]? = some c := by simp
  cases r with
  | none =>
      have hblack := hnone rfl w.length (Nat.zero_le _) c hget
      rw [hc] at hblack
      cases hblack
  | some j =>
      obtain ⟨m, b, rfl, -, hb, hblack, hbefore⟩ := hsome j rfl
      rcases Nat.lt_trichotomy m w.length with hlt | rfl | hlt
      · rw [List.getElem?_append_left hlt] at hb
        rw [hw b (List.mem_of_getElem? hb)] at hblack
        cases hblack
      · exact hnext
      · have hwhite := hbefore w.length (Nat.zero_le _) hlt c hget
        rw [hc] at hwhite
        cases hwhite

/-! ### Trimming -/

/-- A line without the whitespace at its end. -/
def trimRight (s : Bytes) : Bytes := s.rdropWhile isWhite

theorem trimRight_blank (h : Blank s) : trimRight s = [] :=
  List.rdropWhile_eq_nil_iff.mpr h

theorem trimRight_append (v : Bytes) (hw : Blank w) : trimRight (v ++ w) = trimRight v := by
  induction w using List.reverseRecOn with
  | nil => rw [List.append_nil]
  | append_singleton w c ih =>
      have hc : isWhite c = true := hw c (List.mem_append_right w List.mem_cons_self)
      rw [← List.append_assoc, trimRight, List.rdropWhile_concat_pos _ _ _ hc]
      exact ih fun b hb => hw b (List.mem_append_left _ hb)

theorem trimRight_concat (v : Bytes) (hc : isWhite c = false) :
    trimRight (v ++ [c]) = v ++ [c] :=
  List.rdropWhile_concat_neg _ _ _ (by rw [hc]; exact Bool.false_ne_true)

theorem prevNonspaceChar_blank (h : Blank s) :
    prevNonspaceChar s (s.length + 1) = .ok none := by
  obtain ⟨r, hr, hsome, -⟩ := gives_prevCharWhich (tests_isnonspace s) le_rfl
    (Nat.lt_succ_self s.length)
  have hprev : prevNonspaceChar s (s.length + 1) = .ok r := hr
  cases r with
  | none => exact hprev
  | some j =>
      obtain ⟨m, c, -, -, hc, hblack, -⟩ := hsome j rfl
      rw [h c (List.mem_of_getElem? hc)] at hblack
      cases hblack

theorem prevNonspaceChar_last (v : Bytes) (hc : isWhite c = false) (hw : Blank w) :
    prevNonspaceChar (v ++ [c] ++ w) ((v ++ [c] ++ w).length + 1) =
      .ok (some (v.length + 1)) := by
  obtain ⟨r, hr, hsome, hnone⟩ := gives_prevCharWhich (tests_isnonspace (v ++ [c] ++ w)) le_rfl
    (Nat.lt_succ_self (v ++ [c] ++ w).length)
  have hprev : prevNonspaceChar (v ++ [c] ++ w) ((v ++ [c] ++ w).length + 1) = .ok r := hr
  have hget : (v ++ [c] ++ w)[v.length]? = some c := by simp
  have hlt : v.length < (v ++ [c] ++ w).length := (List.getElem?_eq_some_iff.mp hget).1
  cases r with
  | none =>
      have hblack := hnone rfl v.length hlt c hget
      rw [hc] at hblack
      cases hblack
  | some j =>
      obtain ⟨m, b, rfl, -, hb, hblack, hafter⟩ := hsome j rfl
      rcases Nat.lt_trichotomy m v.length with hm | rfl | hm
      · have hwhite := hafter v.length hm hlt c hget
        rw [hc] at hwhite
        cases hwhite
      · exact hprev
      · rw [List.getElem?_append_right (by simpa using hm)] at hb
        rw [hw b (List.mem_of_getElem? hb)] at hblack
        cases hblack

theorem rtrim_eq (s : Bytes) : rtrim s = .ok (trimRight s) := by
  rcases blank_or_last s with h | ⟨v, c, w, rfl, hw, hc⟩
  · rw [rtrim, prevNonspaceChar_blank h, trimRight_blank h]
    rfl
  · rw [rtrim, prevNonspaceChar_last v hc hw, trimRight_append _ hw, trimRight_concat v hc]
    cases w with
    | nil =>
        have hend : nextChar (v ++ [c] ++ []) ((v.length + 1 : ℕ) : Int) = .ok none :=
          nextChar_of_ge (by simp)
        push_cast at hend
        simp only [ok_bind, hend]
        rw [List.append_nil]
        rfl
    | cons b w =>
        have hnext : nextChar (v ++ [c] ++ b :: w) ((v.length + 1 : ℕ) : Int) =
            .ok (some ((v.length + 1 + 1 : ℕ) : Int)) := nextChar_of_lt (by simp)
        push_cast at hnext
        simp only [ok_bind, hnext]
        have hlength : ((v.length : Int) + 1 + 1) = ((v ++ [c]).length : Int) + 1 := by simp
        change Except.ok _ = _
        rw [sub_append_left _ _ hlength]

/-! ### Indenting -/

/-- What the indentation of a line is replaced by: as many tabs or spaces as go up to the
visual column after it. -/
def newIndent (convert : ConvertIndent) (tabsize : Int) (w : Bytes) : Bytes :=
  match convert with
  | .tabs =>
      let (tabs, spaces) := tabsAndSpaces 1 (endCol tabsize 1 w) tabsize
      rep [TAB] tabs ++ rep [SPACE] spaces
  | .spaces => rep [SPACE] (endCol tabsize 1 w - 1)
  | .leave => w

/-- A line with its indentation made again. -/
def reindent (convert : ConvertIndent) (tabsize : Int) (s : Bytes) : Bytes :=
  newIndent convert tabsize (s.takeWhile isWhite) ++ s.dropWhile isWhite

theorem rep_singleton (c : UInt8) (n : Int) : rep [c] n = List.replicate n.toNat c := by
  rw [rep, List.flatten_replicate_singleton]

variable {convert : ConvertIndent} {tabsize : Int}

theorem le_endCol (h : 1 ≤ tabsize) (vcol : Int) (s : Bytes) : vcol ≤ endCol tabsize vcol s := by
  induction s generalizing vcol with
  | nil => exact le_rfl
  | cons c s ih => exact (lt_nextCol h vcol c).le.trans (ih (nextCol tabsize vcol c))

/-- The new indentation is tabs and then spaces, or it is the old one. -/
theorem newIndent_cases (h : 1 ≤ tabsize) (convert : ConvertIndent) (w : Bytes) :
    newIndent convert tabsize w = w ∨ ∃ tabs spaces,
      newIndent convert tabsize w = fill tabs spaces ∧
        endCol tabsize 1 (fill tabs spaces) = endCol tabsize 1 w := by
  have hle := le_endCol h 1 w
  cases convert with
  | leave => exact Or.inl rfl
  | spaces =>
      refine Or.inr ⟨0, (endCol tabsize 1 w - 1).toNat, rep_singleton _ _, ?_⟩
      rw [endCol_fill, List.replicate_zero, endCol, List.foldl_nil]
      omega
  | tabs =>
      obtain ⟨tabs, spaces, hfill, hend, -, -⟩ := tabsAndSpaces_fill h hle
      refine Or.inr ⟨tabs, spaces, ?_, hend⟩
      simp only [newIndent, hfill, rep_singleton, Int.toNat_natCast, fill]

theorem mem_fill {tabs spaces : ℕ} (hc : c ∈ fill tabs spaces) : c = TAB ∨ c = SPACE := by
  rcases List.mem_append.mp hc with hc | hc
  · exact Or.inl (List.eq_of_mem_replicate hc)
  · exact Or.inr (List.eq_of_mem_replicate hc)

theorem endCol_newIndent (h : 1 ≤ tabsize) (convert : ConvertIndent) (w : Bytes) :
    endCol tabsize 1 (newIndent convert tabsize w) = endCol tabsize 1 w := by
  rcases newIndent_cases h convert w with heq | ⟨tabs, spaces, heq, hend⟩
  · rw [heq]
  · rw [heq, hend]

theorem blank_newIndent (h : 1 ≤ tabsize) (convert : ConvertIndent) (hw : Blank w) :
    Blank (newIndent convert tabsize w) := by
  rcases newIndent_cases h convert w with heq | ⟨tabs, spaces, heq, -⟩
  · rwa [heq]
  · intro c hc
    rw [heq] at hc
    rcases mem_fill hc with rfl | rfl
    · rfl
    · rfl

theorem plain_newIndent (h : 1 ≤ tabsize) (convert : ConvertIndent) (hw : Plain w) :
    Plain (newIndent convert tabsize w) := by
  rcases newIndent_cases h convert w with heq | ⟨tabs, spaces, heq, -⟩
  · rwa [heq]
  · intro c hc
    rw [heq] at hc
    rcases mem_fill hc with rfl | rfl
    · rfl
    · rfl

/-- The indentation depends on the visual column after the old one alone. -/
theorem newIndent_newIndent (h : 1 ≤ tabsize) (convert : ConvertIndent) (w : Bytes) :
    newIndent convert tabsize (newIndent convert tabsize w) = newIndent convert tabsize w := by
  have hend := endCol_newIndent h convert w
  cases convert with
  | leave => rfl
  | spaces =>
      change rep [SPACE] (endCol tabsize 1 (newIndent .spaces tabsize w) - 1) = _
      rw [hend]
      rfl
  | tabs =>
      conv_lhs => rw [newIndent, hend]
      rfl

/-! ### Normal lines -/

/-- Text from a first to a last character that is not whitespace. -/
structure Body (m : Bytes) : Prop where
  first : ∃ c d, m = c :: d ∧ isWhite c = false
  last : ∃ v c, m = v ++ [c] ∧ isWhite c = false

variable {m : Bytes}

/-- A line is blank, or it is a body between whitespace. -/
theorem blank_or_body (s : Bytes) :
    Blank s ∨ ∃ w m v, s = w ++ m ++ v ∧ Blank w ∧ Blank v ∧ Body m := by
  rcases blank_or_first s with h | ⟨w, c, d, rfl, hw, hc⟩
  · exact Or.inl h
  · rcases blank_or_last (c :: d) with h | ⟨v, b, v', heq, hv', hb⟩
    · rw [h c List.mem_cons_self] at hc
      cases hc
    · refine Or.inr ⟨w, v ++ [b], v', by rw [List.append_assoc, ← heq], hw, hv', ?_, v, b, rfl, hb⟩
      cases v with
      | nil => exact ⟨b, [], rfl, hb⟩
      | cons a v =>
          have hhead : c = a := (List.cons.inj heq).1
          exact ⟨a, v ++ [b], rfl, hhead ▸ hc⟩

theorem takeWhile_body (hw : Blank w) (hm : Body m) (v : Bytes) :
    (w ++ m ++ v).takeWhile isWhite = w := by
  obtain ⟨c, d, rfl, hc⟩ := hm.first
  rw [List.append_assoc, List.takeWhile_append_of_pos hw, List.cons_append,
    List.takeWhile_cons_of_neg (by rw [hc]; exact Bool.false_ne_true), List.append_nil]

theorem dropWhile_body (hw : Blank w) (hm : Body m) (v : Bytes) :
    (w ++ m ++ v).dropWhile isWhite = m ++ v := by
  obtain ⟨c, d, rfl, hc⟩ := hm.first
  rw [List.append_assoc, List.dropWhile_append_of_pos hw, List.cons_append,
    List.dropWhile_cons_of_neg (by rw [hc]; exact Bool.false_ne_true)]

theorem trimRight_body (w : Bytes) (hm : Body m) (hv : Blank v) :
    trimRight (w ++ m ++ v) = w ++ m := by
  obtain ⟨u, c, rfl, hc⟩ := hm.last
  rw [trimRight_append _ hv, ← List.append_assoc, trimRight_concat _ hc]

/-- The text between the first and the last character that is not whitespace. -/
def trim (s : Bytes) : Bytes := trimRight (s.dropWhile isWhite)

theorem trim_blank (h : Blank s) : trim s = [] := by
  rw [trim, List.dropWhile_eq_nil_iff.mpr h]
  rfl

theorem trim_body (hw : Blank w) (hm : Body m) (hv : Blank v) : trim (w ++ m ++ v) = m := by
  rw [trim, dropWhile_body hw hm]
  exact trimRight_body [] hm hv

/-- The visual column of the first character that is not whitespace. -/
def firstVisualCol (tabsize : Int) (s : Bytes) : Option Int :=
  (s.findIdx? fun c => !isWhite c).map fun (n : ℕ) => visualCol s (n + 1) tabsize

theorem firstVisualCol_blank (h : Blank s) : firstVisualCol tabsize s = none := by
  rw [firstVisualCol, List.findIdx?_eq_none_iff.mpr, Option.map_none]
  intro c hc
  rw [h c hc]
  rfl

theorem colAt_append (vcol : Int) (w d : Bytes) :
    colAt tabsize vcol (w ++ d) w.length = endCol tabsize vcol w := by
  induction w generalizing vcol with
  | nil => exact colAt_zero vcol d
  | cons c w ih =>
      rw [List.cons_append, List.length_cons, colAt_cons_succ]
      exact ih (nextCol tabsize vcol c)

/-- The visual column after some text is that of the character after it. -/
theorem visualCol_append (w d : Bytes) :
    visualCol (w ++ d) (w.length + 1) tabsize = endCol tabsize 1 w := by
  rw [visualCol_eq _ (by omega), add_sub_cancel_right, Int.toNat_natCast, colAt_append]

theorem firstVisualCol_body (tabsize : Int) (hw : Blank w) (hm : Body m) (v : Bytes) :
    firstVisualCol tabsize (w ++ m ++ v) = some (endCol tabsize 1 w) := by
  obtain ⟨c, d, rfl, hc⟩ := hm.first
  have hfirst : (w ++ (c :: d ++ v)).findIdx? (fun c => !isWhite c) = some w.length := by
    have hnone : w.findIdx? (fun c => !isWhite c) = none := by
      apply List.findIdx?_eq_none_iff.mpr
      intro b hb
      rw [hw b hb]
      rfl
    simp [List.findIdx?_append, hnone, List.findIdx?_cons, hc]
  rw [List.append_assoc, firstVisualCol, hfirst, Option.map_some, visualCol_append]

/-- A line after both passes over it. -/
def normalText (convert : ConvertIndent) (tabsize : Int) (s : Bytes) : Bytes :=
  reindent convert tabsize (trimRight s)

theorem newIndent_nil (h : 1 ≤ tabsize) (convert : ConvertIndent) :
    newIndent convert tabsize [] = [] := by
  have hend := endCol_newIndent h convert []
  cases hnew : newIndent convert tabsize [] with
  | nil => rfl
  | cons c s =>
      have hlt := lt_nextCol h 1 c
      have hle := le_endCol h (nextCol tabsize 1 c) s
      rw [hnew] at hend
      change endCol tabsize (nextCol tabsize 1 c) s = 1 at hend
      omega

theorem normalText_blank (h : 1 ≤ tabsize) (convert : ConvertIndent) (hs : Blank s) :
    normalText convert tabsize s = [] := by
  rw [normalText, trimRight_blank hs, reindent, List.takeWhile_nil, newIndent_nil h]
  rfl

theorem normalText_body (convert : ConvertIndent) (tabsize : Int) (hw : Blank w) (hm : Body m)
    (hv : Blank v) :
    normalText convert tabsize (w ++ m ++ v) = newIndent convert tabsize w ++ m := by
  have htake := takeWhile_body hw hm []
  have hdrop := dropWhile_body hw hm []
  simp only [List.append_nil] at htake hdrop
  rw [normalText, trimRight_body w hm hv, reindent, htake, hdrop]

theorem blank_nil : Blank [] := fun _ hc => absurd hc List.not_mem_nil

/-- A normal line has the same text, at the same visual column, and nothing after it. -/
theorem normalText_spec (h : 1 ≤ tabsize) (convert : ConvertIndent) (s : Bytes) :
    trim (normalText convert tabsize s) = trim s ∧
      firstVisualCol tabsize (normalText convert tabsize s) = firstVisualCol tabsize s ∧
      ∀ c ∈ (normalText convert tabsize s).getLast?, isWhite c = false := by
  rcases blank_or_body s with hs | ⟨w, m, v, rfl, hw, hv, hm⟩
  · rw [normalText_blank h convert hs, trim_blank hs, firstVisualCol_blank hs]
    refine ⟨rfl, rfl, ?_⟩
    intro c hc
    cases hc
  · have hnew := blank_newIndent h convert hw
    have htrim := trim_body hnew hm blank_nil
    have hcol := firstVisualCol_body tabsize hnew hm []
    rw [List.append_nil] at htrim hcol
    rw [normalText_body convert tabsize hw hm hv, htrim, trim_body hw hm hv, hcol,
      firstVisualCol_body tabsize hw hm, endCol_newIndent h]
    refine ⟨rfl, rfl, ?_⟩
    obtain ⟨u, b, rfl, hb⟩ := hm.last
    intro c hc
    rw [← List.append_assoc, List.getLast?_concat] at hc
    exact Option.some.inj hc ▸ hb

theorem normalText_normalText (h : 1 ≤ tabsize) (convert : ConvertIndent) (s : Bytes) :
    normalText convert tabsize (normalText convert tabsize s) = normalText convert tabsize s := by
  rcases blank_or_body s with hs | ⟨w, m, v, rfl, hw, hv, hm⟩
  · rw [normalText_blank h convert hs, normalText_blank h convert blank_nil]
  · have hagain := normalText_body convert tabsize
      (blank_newIndent h convert hw) hm blank_nil
    rw [List.append_nil, newIndent_newIndent h] at hagain
    rw [normalText_body convert tabsize hw hm hv, hagain]

theorem plain_normalText (h : 1 ≤ tabsize) (convert : ConvertIndent) (hs : Plain s) :
    Plain (normalText convert tabsize s) := by
  have htrim : Plain (trimRight s) := fun c hc => hs c ((List.rdropWhile_prefix _ s).subset hc)
  intro c hc
  rcases List.mem_append.mp hc with hc | hc
  · exact plain_newIndent h convert
      (fun b hb => htrim b ((List.takeWhile_prefix _).subset hb)) c hc
  · exact htrim c ((List.dropWhile_suffix _).subset hc)

end LuaAttic.Codedit
