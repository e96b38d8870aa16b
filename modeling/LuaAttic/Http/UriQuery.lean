import LuaAttic.Http.Percent

/-!
# The arguments of a query, formatted and parsed

`parse_query` takes `;` for a separator and `+` for a space, and neither is
escaped in keys and values.  So an argument is recovered if it has none of the
two in it, and none that has is ever returned.
-/

namespace LuaAttic.Http.Uri

open LuaAttic.Lua Function

/-! ## Arguments as tokens -/

/-- The tokens of a key or value, in which spaces are written as `+`. -/
def argTokens (reserved : String) (s : Bytes) : List Token :=
  s.map fun b => escapeToken reserved "" (if b = 0x20 then 0x2B else b)

def pairTokens (kv : Bytes × Bytes) : List Token :=
  argTokens "&=" kv.1 ++ .char 0x3D :: argTokens "&" kv.2

theorem escape_spaceToPlus {r : String} (hr : r ∈ ["", "&=", "&", "/"])
    (s : Bytes) : escape (spaceToPlus s) r "" = render (argTokens r s) := by
  have hplus : spaceToPlus s = s.map fun b => if b = 0x20 then 0x2B else b := by
    have hreplace := gsub_replace (chr ' ') 0x2B s
    simpa [spaceToPlus, lit, Char.toUInt8] using hreplace
  rw [escape_eq_render (reserved_ok r hr), hplus, List.map_map]
  rfl

theorem formatArg_eq (kv : Bytes × Bytes) :
    formatArg kv.1 kv.2 = render (pairTokens kv) := by
  rw [formatArg, escape_spaceToPlus (by simp), escape_spaceToPlus (by simp),
    pairTokens, render_append, render_cons]
  simp [lit, Token.render, Char.toUInt8]

theorem formatArgs_eq (args : Args) :
    formatArgs args =
      render (concat [.char 0x26] (args.pairs.map pairTokens)) := by
  rw [render_concat, List.map_map, formatArgs]
  congr 1
  exact List.map_congr_left fun kv _ => formatArg_eq kv

/-! ## Decoding tokens -/

/-- What a token of an argument is read as. -/
def decodeToken (t : Token) : UInt8 :=
  if t = .char 0x2B then 0x20 else t.value

def decoded (l : List Token) : Bytes := l.map decodeToken

theorem plusToSpace_eq (s : Bytes) :
    plusToSpace s = s.map fun b => if b = 0x2B then 0x20 else b := by
  have hreplace := gsub_replace (chr '+') 0x20 s
  simpa [plusToSpace, lit, Char.toUInt8] using hreplace

/-- Pluses are replaced before tokens are decoded. -/
theorem unescape_plusToSpace {l : List Token} (h : Proper l) :
    unescape (plusToSpace (render l)) = decoded l := by
  have hrender : plusToSpace (render l) =
      render (l.map fun t => if t = .char 0x2B then .char 0x20 else t) := by
    rw [plusToSpace_eq, render, render, List.map_flatMap, List.flatMap_map]
    congr 1
    funext t
    cases t with
    | char b =>
        by_cases hb : b = 0x2B
        · subst hb
          rfl
        · simp [hb, Token.render]
    | escaped b =>
        have hdigits : ∀ b : UInt8, (0x25 :: hexByte b).map
            (fun b => if b = 0x2B then 0x20 else b) = 0x25 :: hexByte b :=
          forall_byte (by decide)
        exact hdigits b
  have hproper : Proper (l.map fun t =>
      if t = .char 0x2B then .char 0x20 else t) := by
    intro hmem
    obtain ⟨t, ht, heq⟩ := List.mem_map.mp hmem
    split_ifs at heq with hplus
    · cases heq
    · exact h (heq ▸ ht)
  rw [hrender, unescape_render_self hproper, List.map_map]
  refine List.map_congr_left fun t _ => ?_
  unfold decodeToken
  by_cases ht : t = .char 0x2B
  · simp [ht, Token.value]
  · simp [ht]

/-- What a byte of an argument is written as: it is read as the same unless it is a plus,
does not open an escape, and is no separator unless it is a semicolon. -/
theorem argToken_spec {r : String} (hr : r = "&=" ∨ r = "&") (b : UInt8) :
    (b ≠ 0x2B → decodeToken (escapeToken r "" (if b = 0x20 then 0x2B else b)) = b) ∧
      escapeToken r "" (if b = 0x20 then 0x2B else b) ≠ .char 0x25 ∧
      escapeToken r "" (if b = 0x20 then 0x2B else b) ≠ .escaped 0x3B ∧
      escapeToken r "" (if b = 0x20 then 0x2B else b) ≠ .escaped 0x2B ∧
      (b ≠ 0x3B →
        escapeToken r "" (if b = 0x20 then 0x2B else b) ≠ .char 0x26 ∧
          escapeToken r "" (if b = 0x20 then 0x2B else b) ≠ .char 0x3B) := by
  revert b
  rcases hr with rfl | rfl <;> exact forall_byte (by decide)

/-- What an argument without pluses is written as is read as the same. -/
theorem decoded_argTokens {r : String} (hr : r = "&=" ∨ r = "&") {s : Bytes}
    (hs : 0x2B ∉ s) : decoded (argTokens r s) = s := by
  rw [decoded, argTokens, List.map_map]
  refine (List.map_congr_left fun b hb => ?_).trans (List.map_id s)
  exact (argToken_spec hr b).1 fun heq => hs (heq ▸ hb)

/-! ## One argument -/

/-- What stands before the first `=`, and what comes after it. -/
def splitEq (s : Bytes) : Bytes × Bytes :=
  (s.takeWhile (noneOf "="), (s.dropWhile (noneOf "=")).tail)

theorem argPattern_values (s : Bytes) :
    argPattern.values s = some [(splitEq s).1, (splitEq s).2] := by
  have hrest : matchItems [.capStop, .opt (chr '='), .capStart, .star anyChar,
      .capStop, .atEnd] [.opened s] (s.dropWhile (noneOf "=")) =
      some ([], [.closed (splitEq s).1, .closed (splitEq s).2]) := by
    have hvalue : ∀ t : Bytes, matchItems [.capStart, .star anyChar, .capStop,
        .atEnd] [.closed (splitEq s).1] t =
        some ([], [.closed (splitEq s).1, .closed t]) := by
      intro t
      simp only [matchItems]
      rw [maxExpand_of_isSome] <;> simp [closeLast]
    rw [matchItems, closeLast_dropWhile]
    have hhead := List.head?_dropWhile_not (noneOf "=") s
    cases hdrop : s.dropWhile (noneOf "=") with
    | nil =>
        have hempty : (splitEq s).2 = [] := by rw [splitEq, hdrop, List.tail_nil]
        rw [matchItems, hempty]
        exact hvalue []
    | cons b t =>
        rw [hdrop, List.head?_cons] at hhead
        have heq : ∀ b : UInt8, noneOf "=" b = false → chr '=' b = true :=
          forall_byte (by decide)
        have hb : chr '=' b = true := heq b hhead
        have htail : (splitEq s).2 = t := by rw [splitEq, hdrop, List.tail_cons]
        rw [matchItems, if_pos hb, htail]
        have hvalue' := hvalue t
        rw [splitEq] at hvalue'
        rw [hvalue', Option.some_or]
        rfl
  have hitems : matchItems argPattern.items [] s =
      some ([], [.closed (splitEq s).1, .closed (splitEq s).2]) := by
    rw [argPattern, matchItems, matchItems, List.nil_append,
      maxExpand_of_isSome (Option.isSome_of_eq_some hrest), hrest]
  rw [Pattern.values, Pattern.find.eq_def, Pattern.matchHere, hitems]
  rfl

/-- A pair is put into the table, unless it is empty. -/
def addPair (t : ArgTable) (kv : Bytes × Bytes) : ArgTable :=
  if kv.1 ≠ [] ∨ kv.2 ≠ [] then update t kv.1 (some kv.2) else t

theorem parseArg_eq (t : ArgTable) (s : Bytes) :
    parseArg t s =
      addPair t (unescape (plusToSpace (splitEq s).1),
        unescape (plusToSpace (splitEq s).2)) := by
  simp only [parseArg, argPattern_values]
  rfl

theorem noneOf_eq_of_mem_render {l : List Token} (h : .char 0x3D ∉ l) :
    ∀ b ∈ render l, noneOf "=" b = true := by
  intro b hb
  have hne : b ≠ 0x3D := by
    rintro rfl
    exact h ((mem_render (by decide) (by decide)).mp hb)
  simpa [noneOf, lit, Char.toUInt8] using hne

theorem splitEq_render {l : List Token} (h : .char 0x3D ∉ l)
    (m : List Token) :
    splitEq (render (l ++ .char 0x3D :: m)) = (render l, render m) := by
  have hnone := noneOf_eq_of_mem_render h
  have hlit : render (l ++ .char 0x3D :: m) = render l ++ 0x3D :: render m := by
    rw [render_append, render_cons]
    rfl
  have heq : ¬ noneOf "=" 0x3D = true := by decide
  rw [hlit, splitEq, List.takeWhile_append_of_pos hnone,
    List.dropWhile_append_of_pos hnone, List.takeWhile_cons_of_neg heq,
    List.dropWhile_cons_of_neg heq, List.append_nil, List.tail_cons]

theorem splitEq_render_of_notMem {l : List Token} (h : .char 0x3D ∉ l) :
    splitEq (render l) = (render l, []) := by
  have hnone := noneOf_eq_of_mem_render h
  rw [splitEq, List.takeWhile_eq_self_iff.mpr hnone,
    List.dropWhile_eq_nil_iff.mpr hnone, List.tail_nil]

/-- An argument is read as two runs of its tokens. -/
theorem parseArg_render {l : List Token} (hl : Proper l) (t : ArgTable) :
    ∃ k v, k ⊆ l ∧ v ⊆ l ∧
      parseArg t (render l) = addPair t (decoded k, decoded v) := by
  by_cases heq : .char 0x3D ∈ l
  · obtain ⟨k, v, rfl, hk⟩ := List.eq_append_cons_of_mem heq
    have hsubk : k ⊆ k ++ .char 0x3D :: v := List.subset_append_left _ _
    have hsubv : v ⊆ k ++ .char 0x3D :: v := fun b hb =>
      List.mem_append_right k (List.mem_cons_of_mem _ hb)
    refine ⟨k, v, hsubk, hsubv, ?_⟩
    rw [parseArg_eq, splitEq_render hk,
      unescape_plusToSpace (mt (@hsubk _) hl),
      unescape_plusToSpace (mt (@hsubv _) hl)]
  · refine ⟨l, [], List.Subset.refl l, List.nil_subset l, ?_⟩
    rw [parseArg_eq, splitEq_render_of_notMem heq, unescape_plusToSpace hl]
    rfl

/-! ## Arguments without separators -/

/-- The separators between arguments. -/
def isSeparator : CharClass := oneOf "&;"

/-- A token that does not separate arguments. -/
def Inner (l : List Token) : Prop := .char 0x26 ∉ l ∧ .char 0x3B ∉ l

theorem isSeparator_iff (b : UInt8) :
    isSeparator b = true ↔ b = 0x26 ∨ b = 0x3B := by
  simp [isSeparator, oneOf, lit, Char.toUInt8]

theorem not_isSeparator_of_mem_render {l : List Token} (h : Inner l) :
    ∀ b ∈ render l, isSeparator b = false := by
  intro b hb
  rw [← Bool.not_eq_true, isSeparator_iff]
  rintro (rfl | rfl)
  · exact h.1 ((mem_render (by decide) (by decide)).mp hb)
  · exact h.2 ((mem_render (by decide) (by decide)).mp hb)

/-- A string that starts with an inner token starts with no separator. -/
theorem dropWhile_render {t : Token} (ht : Inner [t]) (l : List Token) :
    (render (t :: l)).dropWhile isSeparator = render (t :: l) := by
  have hnone := not_isSeparator_of_mem_render ht
  rw [render_cons, render_nil, List.append_nil] at hnone
  have hne : t.render ≠ [] := by cases t <;> exact List.cons_ne_nil _ _
  obtain ⟨b, u, hrender⟩ := List.exists_cons_of_ne_nil hne
  rw [hrender] at hnone
  rw [render_cons, hrender, List.cons_append, List.dropWhile_cons_of_neg]
  simp [hnone b List.mem_cons_self]

/-- Arguments joined by `&` are found again. -/
theorem splitRuns_concat {l : List (List Token)} (hl : l ≠ [])
    (hinner : ∀ x ∈ l, Inner x ∧ x ≠ []) :
    splitRuns isSeparator (render (concat [.char 0x26] l)) = l.map render := by
  induction l with
  | nil => exact absurd rfl hl
  | cons x l ih =>
      have hx := not_isSeparator_of_mem_render
        (hinner x List.mem_cons_self).1
      cases l with
      | nil =>
          rw [concat_singleton, splitRuns_of_none hx]
          rfl
      | cons y l =>
          have hy := hinner y (List.mem_cons_of_mem x List.mem_cons_self)
          have htail : render (concat [.char 0x26] (x :: y :: l)) =
              render x ++ 0x26 :: render (concat [.char 0x26] (y :: l)) := by
            rw [concat_cons_cons, render_append]
            rfl
          have hhead : (render (concat [.char 0x26] (y :: l))).dropWhile
              isSeparator = render (concat [.char 0x26] (y :: l)) := by
            obtain ⟨t, u, hcons⟩ := List.exists_cons_of_ne_nil hy.2
            have ht : Inner [t] := by
              refine ⟨fun h => hy.1.1 ?_, fun h => hy.1.2 ?_⟩ <;>
                rw [List.mem_singleton.mp h, hcons] <;>
                exact List.mem_cons_self
            obtain ⟨m, hm⟩ : ∃ m, concat [.char 0x26] (y :: l) = t :: m := by
              rw [hcons]
              cases l with
              | nil => exact ⟨u, concat_singleton _ _⟩
              | cons z l => exact ⟨_, concat_cons_cons _ _ _ _⟩
            rw [hm]
            exact dropWhile_render ht m
          rw [htail, splitRuns_append hx (by decide), hhead,
            ih (List.cons_ne_nil y l)
              (fun z hz => hinner z (List.mem_cons_of_mem x hz))]
          rfl

/-- The strings between separators are made of tokens that are none. -/
theorem splitRuns_render (l : List Token) :
    ∀ s ∈ splitRuns isSeparator (render l),
      ∃ x : List Token, s = render x ∧ x ⊆ l ∧ Inner x := by
  have hempty : Inner [] := ⟨List.not_mem_nil, List.not_mem_nil⟩
  induction l with
  | nil =>
      intro s hs
      exact ⟨[], List.mem_singleton.mp hs, List.Subset.refl _, hempty⟩
  | cons t l ih =>
      intro s hs
      have hold : s ∈ splitRuns isSeparator (render l) →
          ∃ x : List Token, s = render x ∧ x ⊆ t :: l ∧ Inner x := by
        intro hmem
        obtain ⟨x, hx, hsub, hinner⟩ := ih s hmem
        exact ⟨x, hx, List.subset_cons_of_subset t hsub, hinner⟩
      by_cases ht : Inner [t]
      · -- the token is put before the first string
        have hnone := not_isSeparator_of_mem_render ht
        rw [render_cons, render_nil, List.append_nil] at hnone
        rw [render_cons, splitRuns_append_of_none hnone] at hs
        obtain ⟨first, rest, hsplit⟩ :=
          List.exists_cons_of_ne_nil (splitRuns_ne_nil isSeparator (render l))
        rw [hsplit, List.modifyHead_cons, List.mem_cons] at hs
        rcases hs with rfl | hs
        · obtain ⟨x, rfl, hsub, hinner⟩ :=
            ih first (hsplit ▸ List.mem_cons_self)
          refine ⟨t :: x, (render_cons t x).symm, List.cons_subset_cons t hsub, ?_⟩
          simp only [Inner, List.mem_singleton] at ht
          simp only [Inner, List.mem_cons, not_or]
          exact ⟨⟨ht.1, hinner.1⟩, ht.2, hinner.2⟩
        · exact hold (hsplit ▸ List.mem_cons_of_mem first hs)
      · obtain ⟨b, rfl, hb⟩ : ∃ b, t = .char b ∧ isSeparator b = true := by
          simp only [Inner, List.mem_singleton, not_and_or, not_not] at ht
          rcases ht with rfl | rfl
          · exact ⟨0x26, rfl, by decide⟩
          · exact ⟨0x3B, rfl, by decide⟩
        have hcons : render (.char b :: l) = b :: render l := rfl
        rw [hcons, splitRuns, if_pos hb] at hs
        split_ifs at hs
        · exact hold hs
        · rcases List.mem_cons.mp hs with rfl | hs
          · exact ⟨[], rfl, List.nil_subset _, hempty⟩
          · exact hold hs

/-! ## What can be recovered -/

/-- A string without separators and spaces that are written as pluses. -/
def Clean (s : Bytes) : Prop := 0x3B ∉ s ∧ 0x2B ∉ s

/-- Every token is one that `escape` writes for an argument. -/
def Written (l : List Token) : Prop :=
  Proper l ∧ .escaped 0x3B ∉ l ∧ .escaped 0x2B ∉ l

theorem decoded_clean {l x : List Token} (hl : Written l) (hx : x ⊆ l)
    (hinner : Inner x) : Clean (decoded x) := by
  constructor <;> intro hmem <;> obtain ⟨t, ht, hvalue⟩ := List.mem_map.mp hmem
  · cases t with
    | char b =>
        have hb : b = 0x3B := by
          unfold decodeToken at hvalue
          split_ifs at hvalue
          · cases hvalue
          · exact hvalue
        exact hinner.2 (hb ▸ ht)
    | escaped b =>
        have hb : b = 0x3B := hvalue
        exact hl.2.1 (hb ▸ hx ht)
  · cases t with
    | char b =>
        unfold decodeToken at hvalue
        split_ifs at hvalue with hplus
        · cases hvalue
        · exact hplus (congrArg Token.char hvalue)
    | escaped b =>
        have hb : b = 0x2B := hvalue
        exact hl.2.2 (hb ▸ hx ht)

/-- What is in the table is clean. -/
def TableClean (t : ArgTable) : Prop :=
  ∀ k v, t k = some v → Clean k ∧ Clean v ∧ (k ≠ [] ∨ v ≠ [])

theorem tableClean_addPair {t : ArgTable} (ht : TableClean t)
    {kv : Bytes × Bytes} (hk : Clean kv.1) (hv : Clean kv.2) :
    TableClean (addPair t kv) := by
  unfold addPair
  split_ifs with hne
  · intro k v hlookup
    by_cases heq : k = kv.1
    · subst heq
      rw [update_self] at hlookup
      exact ⟨hk, Option.some.inj hlookup ▸ hv, Option.some.inj hlookup ▸ hne⟩
    · rw [update_of_ne heq] at hlookup
      exact ht k v hlookup
  · exact ht

/-- Nothing with a semicolon or a plus in it is ever parsed. -/
theorem parseQuery_clean {l : List Token} (hl : Written l) :
    TableClean (parseQuery (render l)) := by
  have hstep : ∀ (segs : List Bytes) (t : ArgTable), TableClean t →
      (∀ s ∈ segs, ∃ x : List Token, s = render x ∧ x ⊆ l ∧ Inner x) →
      TableClean (segs.foldl parseArg t) := by
    intro segs
    induction segs with
    | nil => exact fun t ht _ => ht
    | cons s segs ih =>
        intro t ht hsegs
        obtain ⟨x, rfl, hsub, hinner⟩ := hsegs s List.mem_cons_self
        have hproper : Proper x := mt (@hsub _) hl.1
        obtain ⟨k, v, hk, hv, hparse⟩ := parseArg_render hproper t
        refine ih _ ?_ fun u hu => hsegs u (List.mem_cons_of_mem _ hu)
        rw [hparse]
        refine tableClean_addPair ht ?_ ?_
        · exact decoded_clean hl (List.Subset.trans hk hsub)
            ⟨mt (@hk _) hinner.1, mt (@hk _) hinner.2⟩
        · exact decoded_clean hl (List.Subset.trans hv hsub)
            ⟨mt (@hv _) hinner.1, mt (@hv _) hinner.2⟩
  rw [parseQuery, show oneOf "&;" = isSeparator from rfl, gsplit_plus]
  exact hstep _ _ (fun _ _ h => nomatch h) (splitRuns_render l)

/-! ## The round trip -/

/-- The arguments that can be recovered. -/
def Args.Recoverable (args : Args) : Prop :=
  ∀ kv ∈ args.pairs, Clean kv.1 ∧ Clean kv.2 ∧ (kv.1 ≠ [] ∨ kv.2 ≠ [])

theorem argTokens_written {r : String} (hr : r = "&=" ∨ r = "&") (s : Bytes) :
    Written (argTokens r s) := by
  refine ⟨fun h => ?_, fun h => ?_, fun h => ?_⟩ <;>
    obtain ⟨b, -, hb⟩ := List.mem_map.mp h <;>
    obtain ⟨-, hescape, hsemicolon, hplus, -⟩ := argToken_spec hr b
  · exact hescape hb
  · exact hsemicolon hb
  · exact hplus hb

theorem args_written (args : Args) :
    Written (concat [.char 0x26] (args.pairs.map pairTokens)) := by
  have hpair : ∀ kv : Bytes × Bytes, Written (pairTokens kv) := by
    intro kv
    have hk := argTokens_written (Or.inl rfl) kv.1
    have hv := argTokens_written (Or.inr rfl) kv.2
    simp only [Written, Proper, pairTokens, List.mem_append, List.mem_cons,
      not_or, reduceCtorEq, not_false_eq_true, true_and]
    exact ⟨⟨hk.1, by decide, hv.1⟩, ⟨hk.2.1, hv.2.1⟩, hk.2.2, hv.2.2⟩
  have hall : ∀ x ∈ args.pairs.map pairTokens, Written x := by
    intro x hx
    obtain ⟨kv, -, rfl⟩ := List.mem_map.mp hx
    exact hpair kv
  exact ⟨concat_notMem (by decide) fun x hx => (hall x hx).1,
    concat_notMem (by decide) fun x hx => (hall x hx).2.1,
    concat_notMem (by decide) fun x hx => (hall x hx).2.2⟩

/-- The tokens of a clean string do not separate arguments. -/
theorem argTokens_inner {r : String} (hr : r = "&=" ∨ r = "&") {s : Bytes}
    (hs : Clean s) : Inner (argTokens r s) := by
  have hne : ∀ b ∈ s, b ≠ 0x3B := fun b hb heq => hs.1 (heq ▸ hb)
  refine ⟨fun h => ?_, fun h => ?_⟩ <;> obtain ⟨b, hb, heq⟩ := List.mem_map.mp h
  · exact ((argToken_spec hr b).2.2.2.2 (hne b hb)).1 heq
  · exact ((argToken_spec hr b).2.2.2.2 (hne b hb)).2 heq

theorem key_notMem (s : Bytes) : .char 0x3D ∉ argTokens "&=" s := by
  intro h
  obtain ⟨b, -, heq⟩ := List.mem_map.mp h
  have hbyte : ∀ b : UInt8,
      escapeToken "&=" "" (if b = 0x20 then 0x2B else b) ≠ .char 0x3D :=
    forall_byte (by decide)
  exact hbyte b heq

/-- A clean pair is put into the table as it was. -/
theorem parseArg_pair {kv : Bytes × Bytes} (hk : Clean kv.1) (hv : Clean kv.2)
    (t : ArgTable) : parseArg t (render (pairTokens kv)) = addPair t kv := by
  have hkey := (argTokens_written (Or.inl rfl) kv.1).1
  have hvalue := (argTokens_written (Or.inr rfl) kv.2).1
  rw [parseArg_eq, pairTokens, splitEq_render (key_notMem kv.1),
    unescape_plusToSpace hkey, unescape_plusToSpace hvalue,
    decoded_argTokens (Or.inl rfl) hk.2, decoded_argTokens (Or.inr rfl) hv.2]

theorem lookup_of_mem {pairs : List (Bytes × Bytes)}
    (h : (pairs.map Prod.fst).Nodup) {kv : Bytes × Bytes} (hkv : kv ∈ pairs) :
    pairs.lookup kv.1 = some kv.2 := by
  induction pairs with
  | nil => cases hkv
  | cons p pairs ih =>
      rw [List.map_cons, List.nodup_cons] at h
      rcases List.mem_cons.mp hkv with rfl | hkv
      · exact List.lookup_cons_self
      · have hne : kv.1 ≠ p.1 := by
          intro heq
          exact h.1 (heq ▸ List.mem_map_of_mem hkv)
        rw [List.lookup_cons, beq_eq_false_iff_ne.mpr hne]
        exact ih h.2 hkv

/-- Pairs with different keys are put into the table one after the other. -/
theorem foldl_addPair {pairs : List (Bytes × Bytes)}
    (h : (pairs.map Prod.fst).Nodup)
    (hne : ∀ kv ∈ pairs, kv.1 ≠ [] ∨ kv.2 ≠ []) (t : ArgTable) (k : Bytes) :
    pairs.foldl addPair t k = (pairs.lookup k).or (t k) := by
  induction pairs generalizing t with
  | nil => rfl
  | cons p pairs ih =>
      rw [List.map_cons, List.nodup_cons] at h
      rw [List.foldl_cons, ih h.2 fun kv hkv => hne kv (List.mem_cons_of_mem p hkv),
        addPair, if_pos (hne p List.mem_cons_self), List.lookup_cons]
      by_cases hk : k = p.1
      · subst hk
        have hnone : pairs.lookup p.1 = none := by
          rw [List.lookup_eq_none_iff]
          intro kv hkv
          rw [bne_iff_ne]
          exact fun heq => h.1 (heq ▸ List.mem_map_of_mem hkv)
        rw [hnone, update_self, beq_self_eq_true]
        rfl
      · rw [update_of_ne hk, beq_eq_false_iff_ne.mpr hk]

theorem parseQuery_of_recoverable {args : Args} (h : args.Recoverable) :
    parseQuery (formatArgs args) = args.table := by
  have hsegs : gsplit ⟨[.plus isSeparator], false⟩ (formatArgs args) =
      if args.pairs = [] then [[]]
      else (args.pairs.map pairTokens).map render := by
    rw [gsplit_plus, formatArgs_eq]
    split_ifs with hnil
    · rw [hnil]
      rfl
    · refine splitRuns_concat (mt List.map_eq_nil_iff.mp hnil) ?_
      intro x hx
      obtain ⟨kv, hkv, rfl⟩ := List.mem_map.mp hx
      have hk := argTokens_inner (Or.inl rfl) (h kv hkv).1
      have hv := argTokens_inner (Or.inr rfl) (h kv hkv).2.1
      refine ⟨?_, List.append_ne_nil_of_right_ne_nil _ (List.cons_ne_nil _ _)⟩
      simp only [Inner, pairTokens, List.mem_append, List.mem_cons, not_or]
      exact ⟨⟨hk.1, by decide, hv.1⟩, hk.2, by decide, hv.2⟩
  have hfold : ∀ (pairs : List (Bytes × Bytes)) (t : ArgTable),
      (∀ kv ∈ pairs, Clean kv.1 ∧ Clean kv.2) →
      ((pairs.map pairTokens).map render).foldl parseArg t =
        pairs.foldl addPair t := by
    intro pairs
    induction pairs with
    | nil => exact fun t _ => rfl
    | cons kv pairs ih =>
        intro t hclean
        have hkv := hclean kv List.mem_cons_self
        rw [List.map_cons, List.map_cons, List.foldl_cons, List.foldl_cons,
          parseArg_pair hkv.1 hkv.2]
        exact ih _ fun p hp => hclean p (List.mem_cons_of_mem kv hp)
  rw [parseQuery, show oneOf "&;" = isSeparator from rfl, hsegs]
  funext k
  split_ifs with hnil
  · rw [Args.table, hnil]
    rfl
  · rw [hfold _ _ fun kv hkv => ⟨(h kv hkv).1, (h kv hkv).2.1⟩,
      foldl_addPair args.nodup fun kv hkv => (h kv hkv).2.2]
    exact Option.or_none

/-- The arguments are parsed from where they have been put. -/
theorem parse_args (t : Uri Args) (args : Args) :
    (parse (format { t with args := some args })).args =
      some (parseQuery (formatArgs args)) := by
  obtain ⟨hfragment, hquery⟩ := takeOut_format { t with args := some args }
  obtain ⟨f, hf⟩ : ∃ f,
      takeOut (restPattern '#') (format { t with args := some args }) =
        (formatFront { t with args := some args } ++
          formatQuery { t with args := some args }, f) :=
    ⟨_, Prod.ext hfragment rfl⟩
  simp only [parse, hf, hquery]
  split
  · simp only [parseAuthority]
    split <;> rfl
  · rfl

/-- The arguments of a URI are recovered from its formatted string exactly when
no key and no value has a semicolon or a plus in it, and no pair is empty. -/
theorem args_recovered_iff (t : Uri Args) (args : Args) :
    (parse (format { t with args := some args })).args = some args.table ↔
      args.Recoverable := by
  rw [parse_args, Option.some.injEq]
  constructor
  · intro heq kv hkv
    have hclean := parseQuery_clean (args_written args)
    rw [← formatArgs_eq, heq] at hclean
    exact hclean kv.1 kv.2 (lookup_of_mem args.nodup hkv)
  · exact parseQuery_of_recoverable

/-- A value with a semicolon, and one with a plus. -/
theorem args_lost :
    let t : Uri Args := ⟨none, none, none, none, none, none, none, none, none,
      none⟩
    let args : Args := ⟨[(lit "k", lit "a;b"), (lit "l", lit "1+1")], by decide⟩
    let parsed := (parse (format { t with args := some args })).args
    parsed.bind (· (lit "k")) = some (lit "a") ∧
      parsed.bind (· (lit "b")) = some [] ∧
      parsed.bind (· (lit "l")) = some (lit "1 1") ∧
      parsed ≠ some args.table := by
  intro t args parsed
  have hk : parsed.bind (· (lit "k")) = some (lit "a") := by decide
  refine ⟨hk, by decide, by decide, fun heq => ?_⟩
  rw [heq] at hk
  exact absurd hk (by decide)

end LuaAttic.Http.Uri
