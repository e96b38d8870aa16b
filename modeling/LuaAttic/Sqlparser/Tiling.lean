import LuaAttic.Sqlparser.Tokens
import Mathlib.Logic.Relation

/-!
# How the tokens cover a query

The tokens follow each other.  They end at the end of the query, or with an
error token, as long as no pass begins before a last character that is a token
of its own and none comes to a slash that does not begin a comment.
-/

namespace LuaAttic.Sqlparser

open LuaAttic.Lua

variable {ansiQuotes : Bool} {s : Bytes} {i j k : ℕ} {c : UInt8}

/-! ## Matches -/

theorem matchEnd_bounds {p : Pattern} (hi : 1 ≤ i) (hle : i ≤ s.length + 1)
    (h : matchEnd p s i = some j) : i ≤ j ∧ j ≤ s.length + 1 := by
  obtain ⟨m, hm, rfl⟩ := Option.map_eq_some_iff.mp h
  obtain ⟨r, caps, -, hlength⟩ := exists_of_matchHere hm
  rw [List.length_drop] at hlength
  omega

theorem matchAt_advances {p : Pattern} {d : CharClass} {items : List Item}
    (hp : ∀ t, ∃ caps, matchItems p.items [] t = matchItems (.one d :: items) caps t)
    {m : Match} (h : matchAt p s i = some m) : 0 < m.whole.length := by
  obtain ⟨r, caps', hitems, hlength⟩ := exists_of_matchHere h
  obtain ⟨caps, hcaps⟩ := hp (s.drop (i - 1))
  rw [hcaps] at hitems
  have hlt := length_of_matchItems_one hitems
  omega

/-- What a pass skips, and the character after it. -/
theorem matchHere_spacePattern {t : Bytes} (ht : t ≠ []) :
    ∃ w c r, t = w ++ c :: r ∧ (∀ b ∈ w, isSpace b = true) ∧
      (isSpace c = true → r = []) ∧
      spacePattern.matchHere t = some ⟨w ++ [c], [[c]], r⟩ := by
  let k := fun s => matchItems [.capStart, .one anyChar, .capStop] [] s
  have hk : ∀ c r, k (c :: r) = some (r, [.closed [c]]) := by
    intro c r
    simp [k, matchItems, closeLast]
  suffices hsplit : ∃ w c r, t = w ++ c :: r ∧ (∀ b ∈ w, isSpace b = true) ∧
      (isSpace c = true → r = []) ∧ maxExpand isSpace k (w ++ c :: r) = k (c :: r) by
    obtain ⟨w, c, r, rfl, hw, hc, hmax⟩ := hsplit
    refine ⟨w, c, r, rfl, hw, hc, ?_⟩
    have hitems : matchItems spacePattern.items [] ((w ++ [c]) ++ r) =
        some (r, [.closed [c]]) := by
      rw [List.append_assoc, List.singleton_append, ← hk, ← hmax]
      rfl
    have hmatch := matchHere_append hitems
    rwa [List.append_assoc, List.singleton_append] at hmatch
  cases hrest : t.dropWhile isSpace with
  | nil =>
      have hall : ∀ b ∈ t, isSpace b = true := List.dropWhile_eq_nil_iff.mp hrest
      obtain rfl | ⟨w, c, rfl⟩ := List.eq_nil_or_concat t
      · exact absurd rfl ht
      · rw [List.concat_eq_append] at hall ⊢
        have hw : ∀ b ∈ w, isSpace b = true := fun b hb => hall b (List.mem_append_left _ hb)
        exact ⟨w, c, [], rfl, hw, fun _ => rfl, maxExpand_concat hw rfl (by rw [hk]; rfl)⟩
  | cons c r =>
      have hsplit : t = t.takeWhile isSpace ++ c :: r := by
        rw [← hrest, List.takeWhile_append_dropWhile]
      have hc : isSpace c = false := by
        have hhead := List.head?_dropWhile_not isSpace t
        rw [hrest] at hhead
        simpa using hhead
      refine ⟨t.takeWhile isSpace, c, r, hsplit, fun b hb => List.mem_takeWhile_imp hb,
        fun hspace => ?_, ?_⟩
      · rw [hc] at hspace
        cases hspace
      · rw [← hsplit, maxExpand_of_isSome, hrest]
        rw [hrest, hk]
        rfl

/-! ## What a pass does -/

/-- Only white space is left before the last character. -/
def LastAt (s : Bytes) (i : ℕ) : Prop :=
  i ≤ s.length ∧ ∀ b ∈ (s.drop (i - 1)).dropLast, isSpace b = true

/-- After white space there is a slash that does not begin a comment. -/
def OpenSlash (s : Bytes) (i : ℕ) : Prop :=
  ∃ w r, s.drop (i - 1) = w ++ 47 :: r ∧ (∀ b ∈ w, isSpace b = true) ∧
    ¬ ∃ u v, r = lit "*" ++ u ++ lit "*/" ++ v

/-- The comment pattern matches where the comment is closed. -/
theorem isSome_slashPattern_iff :
    (matchEnd slashPattern s i).isSome ↔
      ∃ u v, s.drop (i - 1) = lit "*" ++ u ++ lit "*/" ++ v := by
  let k := fun t => matchItems [.one (chr '*'), .one (chr '/')] [] t
  have hk : ∀ t, (k t).isSome ↔ ∃ v, t = lit "*/" ++ v := by
    intro t
    simp only [k, isSome_matchItems_one_iff, chr_apply, beq_iff_eq]
    constructor
    · rintro ⟨_, _, rfl, rfl, _, v, rfl, rfl, -⟩
      exact ⟨v, rfl⟩
    · rintro ⟨v, rfl⟩
      exact ⟨_, _, rfl, rfl, _, _, rfl, rfl, rfl⟩
  have hmatch : (matchEnd slashPattern s i).isSome ↔
      ∃ t, s.drop (i - 1) = lit "*" ++ t ∧ (minExpand anyChar k t).isSome := by
    rw [matchEnd, Option.isSome_map, matchAt, Pattern.matchHere, Option.isSome_map,
      slashPattern, isSome_matchItems_one_iff]
    simp only [chr_apply, beq_iff_eq]
    constructor
    · rintro ⟨_, t, hdrop, rfl, hsome⟩
      exact ⟨t, hdrop, hsome⟩
    · rintro ⟨t, hdrop, hsome⟩
      exact ⟨_, t, hdrop, rfl, hsome⟩
  rw [hmatch]
  constructor
  · rintro ⟨t, hdrop, hsome⟩
    obtain ⟨t', ⟨u, rfl⟩, hk'⟩ := isSome_minExpand_anyChar_iff.mp hsome
    obtain ⟨v, rfl⟩ := (hk t').mp hk'
    exact ⟨u, v, by rw [hdrop, List.append_assoc, List.append_assoc]⟩
  · rintro ⟨u, v, hdrop⟩
    refine ⟨u ++ (lit "*/" ++ v), by rw [hdrop, List.append_assoc, List.append_assoc], ?_⟩
    exact isSome_minExpand_anyChar_iff.mpr ⟨_, ⟨u, rfl⟩, (hk _).mpr ⟨v, rfl⟩⟩

/-- A token that begins at the position and is not empty, or an error. -/
def Fits (s : Bytes) (i : ℕ) (p : Pass) : Prop :=
  (∃ kind j text, p = .accept kind i j text ∧ kind ≠ .error ∧ kind ≠ .space ∧
    i < j ∧ j ≤ s.length + 1) ∨ ∃ i' j text, p = .reject i' j text

section Classes

variable {p : Pass}

theorem fits_comment {q : Pattern} (hle : i ≤ s.length)
    (h : (matchEnd q s (i + 1)).map (fun j => Pass.accept .comment i j) = some p) :
    Fits s i p := by
  obtain ⟨j, hj, rfl⟩ := Option.map_eq_some_iff.mp h
  obtain ⟨hlt, hend⟩ := matchEnd_bounds (Nat.le_add_left 1 i) (Nat.succ_le_succ hle) hj
  exact .inl ⟨.comment, j, _, rfl, by decide, by decide, hlt, hend⟩

theorem fits_dashComment (hle : i ≤ s.length) (h : dashComment s i c = some p) :
    Fits s i p := by
  unfold dashComment at h
  split at h
  · exact fits_comment hle h
  · cases h

theorem fits_hashComment (hle : i ≤ s.length) (h : hashComment s i c = some p) :
    Fits s i p := by
  unfold hashComment at h
  split at h
  · exact fits_comment hle h
  · cases h

theorem fits_slashComment (hle : i ≤ s.length)
    (hclosed : c = 47 → (matchEnd slashPattern s (i + 1)).isSome)
    (h : slashComment s i c = some p) : Fits s i p := by
  unfold slashComment at h
  split at h
  · next hc =>
      obtain ⟨j, hj⟩ := Option.isSome_iff_exists.mp (hclosed (beq_iff_eq.mp hc))
      refine fits_comment (q := slashPattern) hle ?_
      rw [hj] at h ⊢
      exact h
  · cases h

/-- The quote or backslash that is found is inside of the query. -/
theorem find_stringPattern_bounds {q : UInt8} {before : Bytes} {m : Match} (hi : 1 ≤ i)
    (h : (stringPattern q).find (s.drop (i - 1)) = some (before, m)) :
    i + before.length ≤ s.length := by
  obtain ⟨t, ht, hm⟩ := exists_of_find h
  have hpos : t ≠ [] := by
    rintro rfl
    cases hm
  have hlength := congrArg List.length ht
  rw [List.length_drop, List.length_append] at hlength
  have := List.length_pos_iff.mpr hpos
  omega

/-- The end of a string is inside of the query. -/
theorem closeString_bounds {q : UInt8} {e : ℕ} (hi : 1 ≤ i)
    (h : closeString q s i = .closed e) : i < e ∧ e ≤ s.length + 1 := by
  fun_induction closeString q s i with
  | case1 => cases h
  | case2 => cases h
  | case3 i before m hfind i1 c j1 c2 hc hc2 ih =>
      obtain ⟨hlt, hend⟩ := ih (Nat.le_add_left 1 _) h
      exact ⟨by omega, hend⟩
  | case4 i before m hfind i1 c j1 c2 hc hc2 ih =>
      obtain ⟨hlt, hend⟩ := ih (Nat.le_add_left 1 _) h
      exact ⟨by omega, hend⟩
  | case5 i before m hfind i1 c j1 c2 hc hc2 =>
      obtain rfl : j1 = e := by simpa using h
      have hle := find_stringPattern_bounds hi hfind
      exact ⟨by omega, Nat.succ_le_succ hle⟩

theorem fits_quoted (hi : 1 ≤ i) (h : quoted ansiQuotes s i c = some p) : Fits s i p := by
  unfold quoted at h
  split at h
  · split at h
    · exact .inr ⟨_, _, _, (Option.some.inj h).symm⟩
    · exact .inr ⟨_, _, _, (Option.some.inj h).symm⟩
    · next j hj =>
        obtain ⟨hlt, hend⟩ := closeString_bounds (Nat.le_succ_of_le hi) hj
        refine .inl ⟨_, j, _, (Option.some.inj h).symm, ?_, ?_, Nat.lt_of_succ_lt hlt, hend⟩
        · split <;> decide
        · split <;> decide
  · cases h

/-- A match of something. -/
theorem fits_of_matchAt {q : Pattern} {m : Match} {kind : Kind} {text : Option Bytes}
    (hi : 1 ≤ i) (hle : i ≤ s.length) (herror : kind ≠ .error) (hspace : kind ≠ .space)
    (hm : matchAt q s i = some m) (hpos : 0 < m.whole.length) :
    Fits s i (.accept kind i (i + m.whole.length) text) := by
  have hj : matchEnd q s i = some (i + m.whole.length) := by rw [matchEnd, hm]; rfl
  obtain ⟨-, hend⟩ := matchEnd_bounds hi (Nat.le_succ_of_le hle) hj
  exact .inl ⟨kind, _, text, rfl, herror, hspace, Nat.lt_add_of_pos_right hpos, hend⟩

theorem fits_matched {q : Pattern} {kind : Kind} {d : CharClass} {items : List Item}
    (hi : 1 ≤ i) (hle : i ≤ s.length) (hq : q.items = .one d :: items)
    (herror : kind ≠ .error) (hspace : kind ≠ .space) (h : matched q kind s i = some p) :
    Fits s i p := by
  obtain ⟨j, hj, rfl⟩ := Option.map_eq_some_iff.mp h
  obtain ⟨m, hm, rfl⟩ := Option.map_eq_some_iff.mp hj
  exact fits_of_matchAt hi hle herror hspace hm (matchAt_advances (fun _ => ⟨[], by rw [hq]⟩) hm)

theorem fits_number (hi : 1 ≤ i) (hle : i ≤ s.length) (h : number s i = some p) :
    Fits s i p := by
  unfold number at h
  split at h
  · next j hj =>
      split at h
      · next hdigit =>
          obtain ⟨-, hend⟩ := matchEnd_bounds hi (Nat.le_succ_of_le hle) hj
          exact .inl ⟨_, j, _, (Option.some.inj h).symm, by decide, by decide, hdigit.1, hend⟩
      · cases h
  · cases h

theorem fits_param (hi : 1 ≤ i) (hle : i ≤ s.length) (h : param s i = some p) :
    Fits s i p := by
  obtain ⟨m, hm, rfl⟩ := Option.map_eq_some_iff.mp h
  refine fits_of_matchAt hi hle ?_ ?_ hm (matchAt_advances (fun _ => ⟨[], rfl⟩) hm)
  · split <;> decide
  · split <;> decide

theorem fits_operator (n : ℕ) (hi : 1 ≤ i) (hle : i ≤ s.length)
    (h : operator (n + 1) s i = some p) : Fits s i p := by
  unfold operator at h
  split at h
  · next m hm =>
      simp only at h
      split at h
      · obtain rfl := Option.some.inj h
        exact fits_of_matchAt hi hle (by decide) (by decide) hm
          (matchAt_advances (fun _ => ⟨_, rfl⟩) hm)
      · cases h
  · cases h

/-- Every token fits, apart from a slash that does not begin a comment. -/
theorem fits_token (ansiQuotes : Bool) (hi : 1 ≤ i) (hle : i ≤ s.length)
    (hclosed : c = 47 → (matchEnd slashPattern s (i + 1)).isSome) :
    Fits s i (token ansiQuotes s i c) := by
  unfold token
  cases hfirst : List.findSome? id _ with
  | none => exact .inr ⟨_, _, _, rfl⟩
  | some p =>
      obtain ⟨o, ho, rfl⟩ : ∃ o ∈ _, o = some p := List.exists_of_findSome?_eq_some hfirst
      simp only [List.mem_cons, List.not_mem_nil, or_false] at ho
      rw [Option.getD_some]
      rcases ho with h | h | h | h | h | h | h | h | h | h | h | h
      · exact fits_dashComment hle h.symm
      · exact fits_hashComment hle h.symm
      · exact fits_slashComment hle hclosed h.symm
      · exact fits_quoted hi h.symm
      · exact fits_matched hi hle rfl (by decide) (by decide) h.symm
      · exact fits_matched hi hle rfl (by decide) (by decide) h.symm
      · exact fits_number hi hle h.symm
      · exact fits_matched hi hle rfl (by decide) (by decide) h.symm
      · exact fits_param hi hle h.symm
      · exact fits_operator 2 hi hle h.symm
      · exact fits_operator 1 hi hle h.symm
      · exact fits_operator 0 hi hle h.symm

theorem token_of_open (hopen : matchEnd slashPattern s (i + 1) = none) :
    token ansiQuotes s i 47 = ⟨[⟨.comment, i, none, none⟩], .again none⟩ := by
  have hdash : dashComment s i 47 = none := rfl
  have hhash : hashComment s i 47 = none := rfl
  have hslash : slashComment s i 47 = some ⟨[⟨.comment, i, none, none⟩], .again none⟩ := by
    rw [slashComment, hopen]
    rfl
  rw [token, hdash, hhash, hslash]
  rfl

end Classes

/-! ## Passes -/

theorem pass_of_end (h : s.drop (i - 1) = []) : pass ansiQuotes s (some i) = ⟨[], .stop⟩ := by
  have hnone : matchAt spacePattern s i = none := by rw [matchAt, h]; rfl
  rw [pass, Option.getD_some, hnone]

/-- A pass that does not begin at the end of the query. -/
theorem pass_cases (ansiQuotes : Bool) (hi : 1 ≤ i) (hle : i ≤ s.length) :
    ∃ w c r, s.drop (i - 1) = w ++ c :: r ∧ (∀ b ∈ w, isSpace b = true) ∧
      (isSpace c = true → r = []) ∧
      pass ansiQuotes s (some i) =
        let i1 := i + w.length
        let space : Token := ⟨.space, i, some i1, none⟩
        if i1 = s.length then ⟨[space], .stop⟩
        else
          let p := token ansiQuotes s i1 c
          ⟨space :: p.tokens, p.next⟩ := by
  have hne : s.drop (i - 1) ≠ [] := by
    intro hnil
    have := List.drop_eq_nil_iff.mp hnil
    omega
  obtain ⟨w, c, r, hdrop, hw, hc, hmatch⟩ := matchHere_spacePattern hne
  refine ⟨w, c, r, hdrop, hw, hc, ?_⟩
  rw [pass, Option.getD_some, matchAt, hmatch]
  simp

theorem pass_nil (hs : s ≠ []) : pass ansiQuotes s none = ⟨[], .raise .nilCompare⟩ := by
  obtain ⟨w, c, r, -, -, -, hmatch⟩ := matchHere_spacePattern hs
  have hsome : matchAt spacePattern s 1 = some ⟨w ++ [c], [[c]], r⟩ := hmatch
  rw [pass, Option.getD_none, hsome]

section Split

variable {w r : Bytes}

theorem length_split (hdrop : s.drop (i - 1) = w ++ c :: r) (hi : 1 ≤ i) :
    i + w.length + r.length = s.length := by
  have hlength := congrArg List.length hdrop
  rw [List.length_drop, List.length_append, List.length_cons] at hlength
  omega

theorem drop_split (hdrop : s.drop (i - 1) = w ++ c :: r) (hi : 1 ≤ i) :
    s.drop (i + w.length) = r := by
  have hsum : i + w.length = (i - 1) + (w ++ [c]).length := by
    rw [List.length_append, List.length_singleton]
    omega
  have happend : w ++ c :: r = (w ++ [c]) ++ r := by rw [List.append_assoc, List.singleton_append]
  rw [hsum, ← List.drop_drop, hdrop, happend, List.drop_left]

theorem lastAt_iff (hdrop : s.drop (i - 1) = w ++ c :: r) (hle : i ≤ s.length)
    (hw : ∀ b ∈ w, isSpace b = true) (hc : isSpace c = true → r = []) :
    LastAt s i ↔ r = [] := by
  rw [LastAt, hdrop, and_iff_right hle]
  constructor
  · intro hall
    by_contra hr
    refine hr (hc (hall c ?_))
    rw [List.dropLast_append_of_ne_nil (List.cons_ne_nil c r), List.dropLast_cons_of_ne_nil hr]
    exact List.mem_append_right w List.mem_cons_self
  · rintro rfl
    rw [List.dropLast_concat]
    exact hw

theorem openSlash_iff (hdrop : s.drop (i - 1) = w ++ c :: r) (hi : 1 ≤ i)
    (hw : ∀ b ∈ w, isSpace b = true) (hc : isSpace c = false) :
    OpenSlash s i ↔ c = 47 ∧ matchEnd slashPattern s (i + w.length + 1) = none := by
  have hrest : s.drop (i + w.length + 1 - 1) = r := drop_split hdrop hi
  rw [← Option.not_isSome_iff_eq_none, isSome_slashPattern_iff, hrest]
  constructor
  · rintro ⟨w', r', hdrop', hw', hopen⟩
    have htake : ∀ (v : Bytes) (d : UInt8) (t : Bytes), (∀ b ∈ v, isSpace b = true) →
        isSpace d = false → (v ++ d :: t).takeWhile isSpace = v := by
      intro v d t hv hd
      rw [List.takeWhile_append_of_pos hv, List.takeWhile_cons_of_neg (by simp [hd]),
        List.append_nil]
    have hsame : w ++ c :: r = w' ++ 47 :: r' := hdrop.symm.trans hdrop'
    have hww : w = w' := by
      rw [← htake w c r hw hc, hsame, htake w' 47 r' hw' (by decide)]
    subst hww
    obtain ⟨rfl, rfl⟩ := List.cons.inj (List.append_cancel_left hsame)
    exact ⟨rfl, hopen⟩
  · rintro ⟨rfl, hopen⟩
    exact ⟨w, r, hdrop, hw, hopen⟩

end Split

/-! ## Tilings -/

/-- The tokens follow each other from a position to another one, and only white
space is empty. -/
def Tiles : ℕ → List Token → ℕ → Prop
  | i, [], k => i = k
  | i, t :: ts, k =>
      t.i = i ∧ ∃ j, t.j = some j ∧ i ≤ j ∧ (t.kind ≠ .space → i < j) ∧ Tiles j ts k

/-- All is yielded without an error being raised.  What comes before an error
token follows each other from the position on, to the end of the query if there
is none. -/
def TiledFrom (s : Bytes) (i : ℕ) (r : List Token × Option Error) : Prop :=
  r.2 = none ∧ ∃ k, Tiles i (r.1.takeWhile fun t => t.kind ≠ .error) k ∧
    ((∀ t ∈ r.1, t.kind ≠ .error) → k = s.length + 1)

/-- The next pass begins at the other position. -/
def Follows (ansiQuotes : Bool) (s : Bytes) (i j : ℕ) : Prop :=
  (pass ansiQuotes s (some i)).next = .again (some j)

theorem forall_follows_iff {P : ℕ → Prop} :
    (∀ j, Relation.ReflTransGen (Follows ansiQuotes s) i j → P j) ↔
      P i ∧ ∀ j, Follows ansiQuotes s i j →
        ∀ k, Relation.ReflTransGen (Follows ansiQuotes s) j k → P k := by
  constructor
  · intro h
    exact ⟨h i .refl, fun j hj k hk => h k (.head hj hk)⟩
  · rintro ⟨hi, hnext⟩ j hj
    rcases hj.cases_head with rfl | ⟨k, hk, hkj⟩
    · exact hi
    · exact hnext k hk j hkj

/-- White space and a token before other tokens. -/
theorem tiledFrom_cons_cons {i1 : ℕ} {kind : Kind} {text : Option Bytes}
    {r : List Token × Option Error} (hi : i ≤ i1) (herror : kind ≠ .error) (hlt : i1 < j) :
    TiledFrom s i (⟨.space, i, some i1, none⟩ :: ⟨kind, i1, some j, text⟩ :: r.1, r.2) ↔
      TiledFrom s j r := by
  have htake : ((⟨.space, i, some i1, none⟩ :: ⟨kind, i1, some j, text⟩ :: r.1 :
      List Token).takeWhile fun t => t.kind ≠ .error) =
        ⟨.space, i, some i1, none⟩ :: ⟨kind, i1, some j, text⟩ ::
          r.1.takeWhile fun t => t.kind ≠ .error := by
    rw [List.takeWhile_cons_of_pos (by simp), List.takeWhile_cons_of_pos (by simpa)]
  have htiles : ∀ k, Tiles i (⟨.space, i, some i1, none⟩ :: ⟨kind, i1, some j, text⟩ ::
      r.1.takeWhile fun t => t.kind ≠ .error) k ↔
        Tiles j (r.1.takeWhile fun t => t.kind ≠ .error) k := by
    intro k
    simp [Tiles, hi, hlt, hlt.le]
  rw [TiledFrom, TiledFrom, htake]
  simp only [htiles, List.forall_mem_cons]
  simp [herror]

/-- From the position on all is yielded, as it should be when no pass begins
where it should not. -/
def Settled (ansiQuotes : Bool) (s : Bytes) (i : ℕ) : Prop :=
  ∃ r, (∀ n, s.length + 3 - i ≤ n → tokens ansiQuotes s n (some i) = some r) ∧
    (TiledFrom s i r ↔ ∀ j, Relation.ReflTransGen (Follows ansiQuotes s) i j →
      ¬ LastAt s j ∧ ¬ OpenSlash s j)

section Settled

variable {ts : List Token}

theorem settled_of_stop (hle : i ≤ s.length + 1)
    (hpass : pass ansiQuotes s (some i) = ⟨ts, .stop⟩)
    (h : TiledFrom s i (ts, none) ↔ ¬ LastAt s i ∧ ¬ OpenSlash s i) :
    Settled ansiQuotes s i := by
  refine ⟨(ts, none), fun n hn => ?_, ?_⟩
  · obtain ⟨n, rfl⟩ : ∃ n', n = n' + 1 := ⟨n - 1, by omega⟩
    rw [tokens, hpass]
  · rw [forall_follows_iff, h, iff_self_and]
    intro _ j hj
    rw [Follows, hpass] at hj
    cases hj

/-- The position becomes nil, and an error is raised. -/
theorem settled_of_nil (hle : i ≤ s.length)
    (hpass : pass ansiQuotes s (some i) = ⟨ts, .again none⟩) (hopen : OpenSlash s i) :
    Settled ansiQuotes s i := by
  have hs : s ≠ [] := by
    rintro rfl
    obtain ⟨w, r, hdrop, -⟩ := hopen
    simp at hdrop
  refine ⟨(ts ++ [], some .nilCompare), fun n hn => ?_, ?_⟩
  · obtain ⟨n, rfl⟩ : ∃ n', n = n' + 2 := ⟨n - 2, by omega⟩
    simp only [tokens, hpass, pass_nil hs, Option.map_some]
  · refine iff_of_false ?_ fun h => (h i .refl).2 hopen
    rintro ⟨hraise, -⟩
    cases hraise

theorem settled_of_again (hlt : i < j)
    (hpass : pass ansiQuotes s (some i) = ⟨ts, .again (some j)⟩)
    (hgood : ¬ LastAt s i ∧ ¬ OpenSlash s i)
    (htiled : ∀ r, TiledFrom s i (ts ++ r.1, r.2) ↔ TiledFrom s j r)
    (hle : i ≤ s.length) (h : Settled ansiQuotes s j) : Settled ansiQuotes s i := by
  obtain ⟨r, hrun, hr⟩ := h
  refine ⟨(ts ++ r.1, r.2), fun n hn => ?_, ?_⟩
  · obtain ⟨n, rfl⟩ : ∃ n', n = n' + 1 := ⟨n - 1, by omega⟩
    rw [tokens, hpass]
    simp only
    rw [hrun n (by omega)]
    rfl
  · rw [htiled, hr, forall_follows_iff (i := i), and_iff_right hgood]
    constructor
    · intro hall j' hj'
      rw [Follows, hpass] at hj'
      obtain rfl : j = j' := by simpa using hj'
      exact hall
    · intro hall
      exact hall j (by rw [Follows, hpass])

/-- Nothing is left. -/
theorem settled_of_end (ansiQuotes : Bool) (s : Bytes) :
    Settled ansiQuotes s (s.length + 1) := by
  have hdrop : s.drop (s.length + 1 - 1) = [] := by simp
  refine settled_of_stop le_rfl (pass_of_end hdrop) (iff_of_true ⟨rfl, _, rfl, fun _ => rfl⟩ ?_)
  constructor
  · rintro ⟨hlast, -⟩
    omega
  · rintro ⟨w, r, hsplit, -⟩
    rw [hdrop] at hsplit
    simp at hsplit

/-- The last character is not looked at. -/
theorem settled_of_last (hle : i ≤ s.length) (hlast : LastAt s i)
    (hpass : pass ansiQuotes s (some i) = ⟨[⟨.space, i, some s.length, none⟩], .stop⟩) :
    Settled ansiQuotes s i := by
  refine settled_of_stop (Nat.le_succ_of_le hle) hpass (iff_of_false ?_ fun h => h.1 hlast)
  rintro ⟨-, k, htiles, hk⟩
  simp [Tiles] at htiles hk
  omega

/-- There is a token after the white space. -/
theorem settled_of_token {w : Bytes} {c : UInt8} (hi : 1 ≤ i) (hle : i + w.length ≤ s.length)
    (hlast : ¬ LastAt s i)
    (hopen : OpenSlash s i ↔ c = 47 ∧ matchEnd slashPattern s (i + w.length + 1) = none)
    (hpass : pass ansiQuotes s (some i) =
      ⟨⟨.space, i, some (i + w.length), none⟩ :: (token ansiQuotes s (i + w.length) c).tokens,
        (token ansiQuotes s (i + w.length) c).next⟩)
    (hnext : ∀ j, i < j → j ≤ s.length + 1 → Settled ansiQuotes s j) :
    Settled ansiQuotes s i := by
  have hle' : i ≤ s.length := Nat.le_of_add_right_le hle
  by_cases hslash : OpenSlash s i
  · obtain ⟨rfl, hnone⟩ := hopen.mp hslash
    rw [token_of_open hnone] at hpass
    exact settled_of_nil hle' hpass hslash
  · have hclosed : c = 47 → (matchEnd slashPattern s (i + w.length + 1)).isSome := by
      intro hc47
      rw [← Option.not_isSome_iff_eq_none] at hopen
      exact not_not.mp fun h => hslash (hopen.mpr ⟨hc47, h⟩)
    rcases fits_token ansiQuotes (Nat.le_add_right_of_le hi) hle hclosed with
      ⟨kind, j, text, htoken, herror, hkind, hlt, hend⟩ | ⟨i', j, text, htoken⟩
    · rw [htoken] at hpass
      refine settled_of_again (by omega) hpass ⟨hlast, hslash⟩ (fun r => ?_) hle'
        (hnext j (by omega) hend)
      exact tiledFrom_cons_cons (Nat.le_add_right i w.length) herror hlt
    · rw [htoken] at hpass
      refine settled_of_stop (Nat.le_succ_of_le hle') hpass (iff_of_true ?_ ⟨hlast, hslash⟩)
      exact ⟨rfl, i + w.length, by simp [Tiles, Pass.reject], by simp [Pass.reject]⟩

end Settled

theorem settled (ansiQuotes : Bool) (hi : 1 ≤ i) (hle : i ≤ s.length + 1) :
    Settled ansiQuotes s i := by
  induction hm : s.length + 1 - i using Nat.strong_induction_on generalizing i with
  | _ m ih =>
  subst hm
  rcases Nat.le_succ_iff.mp hle with hle | rfl
  · obtain ⟨w, c, r, hdrop, hw, hc, hpass⟩ := pass_cases ansiQuotes hi hle
    have hlength := length_split hdrop hi
    have hlast := lastAt_iff hdrop hle hw hc
    by_cases hr : r = []
    · subst hr
      rw [List.length_nil, Nat.add_zero] at hlength
      rw [if_pos hlength, hlength] at hpass
      exact settled_of_last hle (hlast.mpr rfl) hpass
    · have hne : i + w.length ≠ s.length := by
        have hpos := List.length_pos_iff.mpr hr
        omega
      have hspace : isSpace c = false := Bool.eq_false_iff.mpr fun h => hr (hc h)
      rw [if_neg hne] at hpass
      exact settled_of_token hi (by omega) (fun h => hr (hlast.mp h))
        (openSlash_iff hdrop hi hw hspace) hpass
        fun j hij hj => ih (s.length + 1 - j) (by omega) (by omega) hj rfl
  · exact settled_of_end ansiQuotes s

/-- All tokens are yielded, or an error is raised.  The tokens cover the query up
to its end or to an error token exactly when no pass begins where only white
space is left before the last character, or where there is a slash that does not
begin a comment. -/
theorem tiles_tokens_iff (ansiQuotes : Bool) (s : Bytes) :
    ∃ r, (∀ n, s.length + 2 ≤ n → tokens ansiQuotes s n (some 1) = some r) ∧
      (TiledFrom s 1 r ↔ ∀ i, Relation.ReflTransGen (Follows ansiQuotes s) 1 i →
        ¬ LastAt s i ∧ ¬ OpenSlash s i) :=
  settled ansiQuotes le_rfl (Nat.le_add_left 1 s.length)

/-- A division is taken for a comment that has no end. -/
example : (pass false (lit "a/b") (some 2)).next = .again none := by decide

/-- A query of one character has no token but white space. -/
theorem not_tiles_tokens :
    ¬ ∀ (ansiQuotes : Bool) (s : Bytes), ∃ n r,
      tokens ansiQuotes s n (some 1) = some r ∧ TiledFrom s 1 r := by
  intro hclaim
  obtain ⟨n, r, hrun, -, k, htiles, hk⟩ := hclaim false (lit "a")
  have hpass : pass false (lit "a") (some 1) = ⟨[⟨.space, 1, some 1, none⟩], .stop⟩ := by
    decide
  cases n with
  | zero => cases hrun
  | succ n =>
      rw [tokens, hpass] at hrun
      obtain rfl := Option.some.inj hrun
      simp [Tiles] at htiles hk
      rw [hk] at htiles
      exact absurd htiles (by decide)

end LuaAttic.Sqlparser
