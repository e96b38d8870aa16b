import LuaAttic.Support.Squeeze
import LuaAttic.Http.Chunked

/-!
# The text of headers (`http.lua`)

The names of headers are written with a capital letter at the beginning of each word and
dashes between the words; reading them takes both back.  In values each run of blanks
becomes a space, and the ends are trimmed.
-/

namespace LuaAttic.Http

open LuaAttic.Lua LuaAttic.Support

/-! ## The modelled functions -/

/-- `string.upper` of one character. -/
def upperChar (b : UInt8) : UInt8 :=
  if 0x61 ≤ b ∧ b ≤ 0x7A then b - 0x20 else b

/-- `s:upper()` -/
def upper (s : Bytes) : Bytes := s.map upperChar

/-- `upper1(c, s)` -/
def upper1 (c s : Bytes) : Bytes := upper c ++ s

/-- `'(%a)(%w*)'` -/
def wordPattern : Pattern where
  items := [.capStart, .one isAlpha, .capStop, .capStart, .star isAlnum, .capStop]

/-- `format_header_name(k)` -/
def formatHeaderName (k : Bytes) : Bytes :=
  let k := gsub ⟨[.one (chr '_')], false⟩ (fun _ => some (lit "-")) k
  gsub wordPattern
    (fun
      | [c, s] => some (upper1 c s)
      | _ => none) k

/-- `format_header_value(v)` -/
def formatHeaderValue (v : Bytes) : Bytes :=
  let v := gsub ⟨[.plus (oneOf "\t ")], false⟩ (fun _ => some (lit " ")) v
  gsub ⟨[.one (chr ' '), .atEnd], false⟩ (fun _ => some [])
    (gsub ⟨[.one (chr ' ')], true⟩ (fun _ => some []) v)

/-- `format_header(k, v)` -/
def formatHeader (k v : Bytes) : Bytes := k ++ lit ": " ++ v ++ lit "\r\n"

/-! ## Values -/

/-- The blanks: `[\t ]` -/
def isBlank : CharClass := oneOf "\t "

/-- The value of a header with a space for each run of blanks, and without blanks at its
ends. -/
def headerValue (v : Bytes) : Bytes := normalize isBlank 0x20 v

/-- Replacing every run of a class by a character. -/
theorem gsub_plus (c : CharClass) (d : UInt8) (s : Bytes) :
    gsub ⟨[.plus c], false⟩ (fun _ => some [d]) s = squeeze c d s := by
  change (Pattern.piecesFrom _ 0 s).flatMap _ = _
  induction s using squeeze.induct c with
  | case1 =>
      rw [squeeze_nil]
      rfl
  | case2 b s hb ih =>
      have hsplit : b :: s = (b :: s.takeWhile c) ++ s.dropWhile c := by
        rw [List.cons_append, List.takeWhile_append_dropWhile]
      have hitems : matchItems [.plus c] [] ((b :: s.takeWhile c) ++ s.dropWhile c) =
          some (s.dropWhile c, []) := by
        rw [← hsplit, matchItems, if_pos hb, maxExpand_of_isSome rfl]
        rfl
      rw [squeeze_of_pos hb, ← ih]
      conv_lhs => rw [hsplit]
      rw [piecesFrom_hit (matchHere_append (p := ⟨[.plus c], false⟩) hitems)
        (List.cons_ne_nil _ _)]
      rfl
  | case3 b s hb ih =>
      have hitems : matchItems [.plus c] [] (b :: s) = none := by
        simp [matchItems, hb]
      rw [squeeze_of_neg (Bool.eq_false_iff.mpr hb), ← ih, Pattern.piecesFrom,
        matchHere_eq_none hitems]
      rfl

theorem collapse_eq (s : Bytes) : collapse s = squeeze isBlank 0x20 s := gsub_plus _ _ s

/-- A space at the beginning is taken away. -/
theorem gsub_ltrim_cons (s : Bytes) :
    gsub ⟨[.one (chr ' ')], true⟩ (fun _ => some []) (0x20 :: s) = s := by
  have hitems : matchItems [.one (chr ' ')] [] ([0x20] ++ s) = some (s, []) := rfl
  have hhere := matchHere_append (p := ⟨[.one (chr ' ')], true⟩) hitems
  rw [List.singleton_append] at hhere
  simp [gsub, Pattern.pieces, hhere, List.flatMap_map]

theorem gsub_ltrim_of_head {s : Bytes} (h : ∀ b ∈ s.head?, b ≠ 0x20) :
    gsub ⟨[.one (chr ' ')], true⟩ (fun _ => some []) s = s := by
  have hitems : matchItems [.one (chr ' ')] [] s = none := by
    cases s with
    | nil => rfl
    | cons b s =>
        have hb : chr ' ' b = false := by
          have := h b rfl
          exact beq_eq_false_iff_ne.mpr this
        rw [matchItems, hb]
        rfl
  have hhere := matchHere_eq_none (p := ⟨[.one (chr ' ')], true⟩) hitems
  simp [gsub, Pattern.pieces, hhere, List.flatMap_map]

theorem matchHere_rtrim {b : UInt8} {s : Bytes} (h : s ≠ [] ∨ b ≠ 0x20) :
    Pattern.matchHere ⟨[.one (chr ' '), .atEnd], false⟩ (b :: s) = none := by
  apply matchHere_eq_none
  by_cases hb : b = 0x20
  · have hs : s ≠ [] := h.resolve_right (not_not.mpr hb)
    simp [matchItems, hs]
  · have hchr : chr ' ' b = false := beq_eq_false_iff_ne.mpr hb
    rw [matchItems, hchr]
    rfl

/-- A space at the end is taken away. -/
theorem rtrim_concat (s : Bytes) : rtrim (s ++ [0x20]) = s := by
  have hcopied : ∀ y z, s = y ++ z → z ≠ [] →
      Pattern.matchHere ⟨[.one (chr ' '), .atEnd], false⟩ (z ++ [0x20]) = none := by
    intro y z _ hz
    obtain ⟨b, t, rfl⟩ := List.exists_cons_of_ne_nil hz
    exact matchHere_rtrim (.inl (by simp))
  change (Pattern.piecesFrom _ 0 (s ++ [0x20])).flatMap _ = s
  rw [piecesFrom_append hcopied, List.flatMap_append, List.flatMap_map]
  have hlast : Pattern.piecesFrom ⟨[.one (chr ' '), .atEnd], false⟩ 0 [0x20] =
      [.hit [0x20] [[0x20]]] := by decide
  rw [hlast]
  simp

theorem rtrim_of_getLast {s : Bytes} (h : ∀ b ∈ s.getLast?, b ≠ 0x20) : rtrim s = s := by
  have hcopied : ∀ y z, s = y ++ z → z ≠ [] →
      Pattern.matchHere ⟨[.one (chr ' '), .atEnd], false⟩ (z ++ []) = none := by
    rintro y z rfl hz
    obtain ⟨b, t, rfl⟩ := List.exists_cons_of_ne_nil hz
    rw [List.append_nil]
    apply matchHere_rtrim
    by_cases ht : t = []
    · subst ht
      exact .inr (h b (by simp))
    · exact .inl ht
  change (Pattern.piecesFrom _ 0 s).flatMap _ = s
  have hpieces := piecesFrom_append hcopied
  rw [List.append_nil] at hpieces
  have hlast : Pattern.piecesFrom ⟨[.one (chr ' '), .atEnd], false⟩ 0 [] = [] := by decide
  rw [hpieces, hlast, List.append_nil, List.flatMap_map]
  simp

/-- A blank in a string without runs of blanks is a space. -/
theorem isBlank_space : isBlank 0x20 = true := by decide

/-- Formatting a value normalizes it. -/
theorem formatHeaderValue_eq (v : Bytes) : formatHeaderValue v = headerValue v := by
  have hsqueezed := squeezed_squeeze isBlank_space v
  have hblank {b : UInt8} (h : b ≠ 0x20) (hb : b ∈ squeeze isBlank 0x20 v) :
      isBlank b = false := by
    rw [Bool.eq_false_iff]
    exact fun hb' => h (hsqueezed.letter b hb hb')
  change rtrim (gsub ⟨[.one (chr ' ')], true⟩ _ (collapse v)) = trim isBlank _
  rw [collapse_eq]
  generalize squeeze isBlank 0x20 v = s at *
  -- at most one space at the beginning, and at most one at the end
  obtain ⟨t, ht, hsuffix, hleft⟩ : ∃ t, s.dropWhile isBlank = t ∧ t <:+ s ∧
      gsub ⟨[.one (chr ' ')], true⟩ (fun _ => some []) s = t := by
    refine ⟨_, rfl, List.dropWhile_suffix _, ?_⟩
    cases s with
    | nil => exact gsub_ltrim_of_head (by simp)
    | cons b s =>
        by_cases hb : b = 0x20
        · subst hb
          rw [gsub_ltrim_cons, List.dropWhile_cons_of_pos isBlank_space,
            dropWhile_eq_self (hsqueezed.head?_tail isBlank_space)]
        · have hb' := hblank hb List.mem_cons_self
          rw [gsub_ltrim_of_head (by simpa using hb), dropWhile_eq_self (by simpa using hb')]
  rw [hleft, trim, ht]
  have hsqueezed' := hsqueezed.part hsuffix.isInfix
  obtain rfl | ⟨u, b, rfl⟩ := List.eq_nil_or_concat' t
  · exact rtrim_of_getLast (by simp)
  · by_cases hb : b = 0x20
    · subst hb
      rw [rtrim_concat, List.rdropWhile_concat_pos _ _ _ isBlank_space,
        rdropWhile_eq_self (hsqueezed'.getLast?_init isBlank_space)]
    · have hb' := hblank hb (hsuffix.subset (by simp))
      rw [rtrim_of_getLast (by simpa using hb), rdropWhile_eq_self (by simpa using hb')]

/-! ## Names -/

/-- The bytes of the keys: `[a-z0-9_]` -/
def isKeyByte : CharClass := fun b => (0x61 ≤ b && b ≤ 0x7A) || isDigit b || b == 0x5F

/-- The byte, perhaps as a capital letter. -/
def Recased (b d : UInt8) : Prop := d = b ∨ d = upperChar b

theorem matchItems_word {b : UInt8} (hb : isAlpha b = true) (s : Bytes) :
    matchItems wordPattern.items [] (b :: s) =
      some (s.dropWhile isAlnum, [.closed [b], .closed (s.takeWhile isAlnum)]) := by
  have hfirst : closeLast s [.opened (b :: s)] = [.closed [b]] := by
    simp [closeLast]
  have hsecond : closeLast (s.dropWhile isAlnum) [.closed [b], .opened s] =
      [.closed [b], .closed (s.takeWhile isAlnum)] := by
    rw [closeLast, closeLast_dropWhile]
  change matchItems [.one isAlpha, .capStop, .capStart, .star isAlnum, .capStop]
    [.opened (b :: s)] (b :: s) = _
  rw [matchItems, if_pos hb, matchItems, hfirst, matchItems, matchItems]
  rw [maxExpand_of_isSome rfl]
  change some (s.dropWhile isAlnum, closeLast _ [.closed [b], .opened s]) = _
  rw [hsecond]

/-- The capital letters do not change the bytes otherwise. -/
theorem forall₂_words (f : List Bytes → Option Bytes)
    (hf : ∀ c s, f [c, s] = some (upper1 c s)) (s : Bytes) :
    List.Forall₂ Recased s (gsub wordPattern f s) := by
  change List.Forall₂ Recased s ((Pattern.piecesFrom wordPattern 0 s).flatMap _)
  induction hn : s.length using Nat.strong_induction_on generalizing s with
  | _ n ih =>
      subst hn
      cases s with
      | nil => exact .nil
      | cons b s =>
          by_cases hb : isAlpha b = true
          · have hsplit : b :: s = (b :: s.takeWhile isAlnum) ++ s.dropWhile isAlnum := by
              rw [List.cons_append, List.takeWhile_append_dropWhile]
            have hitems := matchItems_word hb s
            rw [hsplit] at hitems
            have hlt : (s.dropWhile isAlnum).length < (b :: s).length :=
              (List.length_dropWhile_le _ s).trans_lt (Nat.lt_succ_self _)
            rw [hsplit, piecesFrom_hit (matchHere_append hitems) (List.cons_ne_nil _ _),
              List.flatMap_cons]
            have hword : List.Forall₂ Recased (b :: s.takeWhile isAlnum)
                (upper1 [b] (s.takeWhile isAlnum)) :=
              .cons (.inr rfl) (List.forall₂_same.mpr fun _ _ => .inl rfl)
            refine List.rel_append ?_ (ih _ hlt _ rfl)
            simpa [Capture.value, hf] using hword
          · have hitems : matchItems wordPattern.items [] (b :: s) = none := by
              simp [wordPattern, matchItems, hb]
            rw [Pattern.piecesFrom, matchHere_eq_none hitems, List.flatMap_cons]
            exact .cons (.inl rfl) (ih _ (Nat.lt_succ_self _) _ rfl)

/-- What a byte of a key becomes. -/
def writtenByte (b : UInt8) : UInt8 := if chr '_' b then 0x2D else b

/-- A byte that is read back from a name. -/
def readByte (b : UInt8) : UInt8 := lowerChar (if chr '-' b then 0x5F else b)

theorem headerName_eq (k : Bytes) : headerName k = k.map readByte := by
  have hlit : lit "_" = [0x5F] := by decide
  rw [headerName, hlit, gsub_replace, lower, List.map_map]
  rfl

theorem forall₂_formatHeaderName (k : Bytes) :
    List.Forall₂ (fun b d => Recased (writtenByte b) d) k (formatHeaderName k) := by
  have hlit : lit "-" = [0x2D] := by decide
  have hwords := forall₂_words
    (fun
      | [c, s] => some (upper1 c s)
      | _ => none) (fun _ _ => rfl) (k.map writtenByte)
  rw [List.forall₂_map_left_iff] at hwords
  change List.Forall₂ _ k (gsub wordPattern _ (gsub ⟨[.one (chr '_')], false⟩ _ k))
  rw [hlit, gsub_replace]
  exact hwords

/-- The bytes of names. -/
def isNameByte : CharClass := fun b => isAlnum b || b == 0x2D

theorem readByte_recased {b d : UInt8} (hb : isKeyByte b = true) (h : Recased (writtenByte b) d) :
    readByte d = b ∧ isNameByte d = true := by
  have hall : ∀ b, isKeyByte b = true →
      (readByte (writtenByte b) = b ∧ isNameByte (writtenByte b) = true) ∧
      readByte (upperChar (writtenByte b)) = b ∧
        isNameByte (upperChar (writtenByte b)) = true := by
    apply forall_byte
    decide
  obtain rfl | rfl := h
  · exact (hall b hb).1
  · exact (hall b hb).2

section Names

variable {k : Bytes}

/-- A name is read back as the key that it was written from. -/
theorem headerName_formatHeaderName (hk : ∀ b ∈ k, isKeyByte b = true) :
    headerName (formatHeaderName k) = k := by
  have hall := forall₂_formatHeaderName k
  rw [headerName_eq]
  generalize formatHeaderName k = n at hall
  induction hall with
  | nil => rfl
  | cons h _ ih =>
      obtain ⟨hb, hk⟩ := List.forall_mem_cons.mp hk
      rw [List.map_cons, (readByte_recased hb h).1, ih hk]

theorem isNameByte_of_mem (hk : ∀ b ∈ k, isKeyByte b = true) :
    ∀ b ∈ formatHeaderName k, isNameByte b = true := by
  have hall := forall₂_formatHeaderName k
  generalize formatHeaderName k = n at hall
  induction hall with
  | nil => simp
  | cons h _ ih =>
      obtain ⟨hb, hk⟩ := List.forall_mem_cons.mp hk
      exact List.forall_mem_cons.mpr ⟨(readByte_recased hb h).2, ih hk⟩

theorem formatHeaderName_ne_nil (hk : k ≠ []) : formatHeaderName k ≠ [] := by
  intro h
  apply hk
  have hlength := (forall₂_formatHeaderName k).length_eq
  rw [h] at hlength
  exact List.eq_nil_of_length_eq_zero hlength

end Names

/-! ## The line of a header -/

theorem isNameByte_ne {b : UInt8} : isNameByte b = true →
    isBlank b = false ∧ noneOf ":" b = true ∧ b ≠ 0x0D ∧ b ≠ 0x0A := by
  revert b
  apply forall_byte
  decide

section Line

variable {n v : Bytes}

theorem collapse_line (hn : ∀ b ∈ n, isNameByte b = true) (w : Bytes) :
    collapse (n ++ 0x3A :: 0x20 :: headerValue w) = n ++ 0x3A :: 0x20 :: headerValue w := by
  have hname : ∀ b ∈ n, isBlank b = false := fun b hb => (isNameByte_ne (hn b hb)).1
  have hcolon : isBlank 0x3A = false := by decide
  have hvalue : (headerValue w).dropWhile isBlank = headerValue w :=
    dropWhile_eq_self (head?_trim _)
  rw [collapse_eq, squeeze_append_of_none hname, squeeze_of_neg hcolon,
    squeeze_of_pos isBlank_space, hvalue, headerValue,
    (squeezed_normalize isBlank_space w).squeeze_eq]

/-- The value is all that stands after the name, up to a space at the end. -/
theorem minExpand_value (hv : ∀ b ∈ v.getLast?, b ≠ 0x20) (caps : List Capture) :
    minExpand anyChar
        (fun s => matchItems [.capStop, .opt (chr ' '), .atEnd] caps s) v =
      some ([], closeLast [] caps) := by
  have hlast (z : Bytes) (hz : z ≠ []) (hend : ∀ b ∈ z.getLast?, b ≠ 0x20) :
      matchItems [.capStop, .opt (chr ' '), .atEnd] caps z = none := by
    obtain ⟨b, t, rfl⟩ := List.exists_cons_of_ne_nil hz
    rw [matchItems, matchItems]
    by_cases hb : chr ' ' b = true
    · have ht : t ≠ [] := by
        rintro rfl
        exact hend b rfl (beq_iff_eq.mp hb)
      simp [matchItems, ht]
    · simp only [if_neg hb]
      simp [matchItems]
  have hall := minExpand_append (c := anyChar) (x := v) (t := [])
    (k := fun s => matchItems [.capStop, .opt (chr ' '), .atEnd] caps s) (fun _ _ => rfl)
    (by
      rintro y z rfl hz
      rw [List.append_nil]
      apply hlast z hz
      intro b hb
      apply hv
      rw [List.getLast?_append, hb]
      rfl) rfl
  rw [List.append_nil] at hall
  exact hall

/-- The name and the value are matched. -/
theorem headerPattern_line (hne : n ≠ []) (hn : ∀ b ∈ n, isNameByte b = true)
    (hv : ∀ b ∈ v.getLast?, b ≠ 0x20) :
    headerPattern.values (n ++ 0x3A :: 0x20 :: v) = some [n, v] := by
  have hname : ∀ b ∈ n, noneOf ":" b = true := fun b hb => (isNameByte_ne (hn b hb)).2.1
  have hitems : matchItems headerPattern.items [] (n ++ 0x3A :: 0x20 :: v) =
      some ([], [.closed n, .closed v]) := by
    have hclose : closeLast (0x3A :: 0x20 :: v) [.opened (n ++ 0x3A :: 0x20 :: v)] =
        [.closed n] := by
      simp [closeLast]
    have hvalue : closeLast [] [.closed n, .opened v] = [.closed n, .closed v] := by
      simp [closeLast]
    have hrest : matchItems [.capStop, .one (chr ':'), .opt (chr ' '), .capStart,
        .lazy anyChar, .capStop, .opt (chr ' '), .atEnd] [.opened (n ++ 0x3A :: 0x20 :: v)]
        (0x3A :: 0x20 :: v) = some ([], [.closed n, .closed v]) := by
      have hexpand := minExpand_value hv ([.closed n] ++ [.opened v])
      rw [matchItems, hclose, matchItems, if_pos (by decide), matchItems, if_pos (by decide),
        matchItems, matchItems, hexpand, Option.some_or]
      exact congrArg (fun caps => some ([], caps)) hvalue
    have hdrop : (n.tail ++ 0x3A :: 0x20 :: v).dropWhile (noneOf ":") = 0x3A :: 0x20 :: v := by
      rw [List.dropWhile_append_of_pos fun b hb => hname b (List.mem_of_mem_tail hb)]
      rfl
    obtain ⟨b, t, rfl⟩ := List.exists_cons_of_ne_nil hne
    rw [List.tail_cons] at hdrop
    change matchItems [.plus (noneOf ":"), .capStop, .one (chr ':'), .opt (chr ' '), .capStart,
      .lazy anyChar, .capStop, .opt (chr ' '), .atEnd] [.opened _] (b :: (t ++ _)) = _
    rw [matchItems, if_pos (hname b List.mem_cons_self), maxExpand_of_isSome, hdrop]
    · exact hrest
    · rw [hdrop]
      exact Option.isSome_iff_exists.mpr ⟨_, hrest⟩
  rw [← List.append_nil (n ++ _)] at hitems
  have hhere := matchHere_append hitems
  rw [List.append_nil] at hhere
  rw [Pattern.values, Pattern.find.eq_def, hhere]
  rfl

end Line

end LuaAttic.Http
