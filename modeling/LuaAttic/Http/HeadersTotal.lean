import LuaAttic.Http.Headers
import LuaAttic.Support.Fallible

/-!
# Which header values raise

A parser raises where it makes a key of an empty quoted string, and where it
calls a method of something missing.  For each header this is a condition on
the tokens of its value, and `parse_values` returns exactly for the tables
without such values.
-/

namespace LuaAttic.Http.Headers

open LuaAttic.Lua LuaAttic.Support

variable {P : Platform}

/-! ## Conditions on lists of tokens -/

/-- An empty token after a separator, or in the first place if that counts. -/
def EmptyAfter (sep : Bytes) (atStart : Prop) (t : List Bytes) : Prop :=
  ∃ i, t[i]? = some [] ∧ (i = 0 ∧ atStart ∨ 0 < i ∧ t[i - 1]? = some sep)

/-- A part of the list starts with an empty token. -/
def EmptyHead (sep : String) (t : List Bytes) : Prop :=
  EmptyAfter (lit sep) True t

/-- The parameters have an empty name. -/
def EmptyParam (t : List Bytes) : Prop :=
  ∃ params, paramTokens t = some params ∧ EmptyHead ";" params

/-- The parts of a value between commas. -/
def elements (s : Bytes) : List Part := tsplit (tokens s) (lit ",")

theorem emptyAfter_nil (sep : Bytes) (atStart : Prop) :
    ¬ EmptyAfter sep atStart [] := by
  rintro ⟨i, hi, -⟩
  simp at hi

theorem emptyAfter_cons (sep : Bytes) (atStart : Prop) (x : Bytes)
    (t : List Bytes) :
    EmptyAfter sep atStart (x :: t) ↔
      atStart ∧ x = [] ∨ EmptyAfter sep (x = sep) t := by
  constructor
  · rintro ⟨i, hi, h⟩
    rcases i with _ | _ | i
    · rcases h with ⟨-, h⟩ | ⟨h, -⟩
      · exact .inl ⟨h, by simpa using hi⟩
      · exact absurd h (lt_irrefl 0)
    · exact .inr ⟨0, by simpa using hi, .inl ⟨rfl, by simpa using h⟩⟩
    · exact .inr ⟨i + 1, by simpa using hi, .inr ⟨i.succ_pos, by simpa using h⟩⟩
  · rintro (⟨hs, rfl⟩ | ⟨i, hi, ⟨rfl, rfl⟩ | ⟨hpos, h⟩⟩)
    · exact ⟨0, rfl, .inl ⟨rfl, hs⟩⟩
    · exact ⟨1, by simpa using hi, .inr ⟨Nat.one_pos, rfl⟩⟩
    · refine ⟨i + 1, by simpa using hi, .inr ⟨i.succ_pos, ?_⟩⟩
      obtain ⟨j, rfl⟩ := Nat.exists_eq_succ_of_ne_zero hpos.ne'
      simpa using h

/-- What the parts of a list have for their first tokens. -/
theorem first_tsplitFrom {sep : Bytes} (hsep : sep ≠ []) (part t : List Bytes) :
    (∃ p ∈ tsplitFrom sep part t, p.first = []) ↔
      part.head? = some [] ∨ EmptyAfter sep (part = []) t := by
  fun_induction tsplitFrom sep part t with
  | case1 => simp [emptyAfter_nil]
  | case2 x l => simp [emptyAfter_nil]
  | case3 t ih => simpa [emptyAfter_cons, hsep] using ih
  | case4 x t hx ih => simpa [emptyAfter_cons, hx] using ih
  | case5 y l t ih =>
      simp only [List.mem_cons, exists_eq_or_imp, ih, emptyAfter_cons]
      simp
  | case6 y l x t hx ih => simpa [emptyAfter_cons, hx] using ih

theorem first_tsplit {sep : String} (hsep : lit sep ≠ []) (t : List Bytes) :
    (∃ p ∈ tsplit t (lit sep), p.first = []) ↔ EmptyHead sep t := by
  have h := first_tsplitFrom hsep [] t
  simpa [tsplit, EmptyHead] using h

theorem forall_first_tsplit {sep : String} (hsep : lit sep ≠ [])
    (t : List Bytes) :
    (∀ p ∈ tsplit t (lit sep), p.first ≠ []) ↔ ¬ EmptyHead sep t := by
  rw [← first_tsplit hsep]
  exact ⟨fun h ⟨p, hp, hnil⟩ => h p hp hnil, fun h p hp hnil => h ⟨p, hp, hnil⟩⟩

/-! ## Keys and parameters -/

/-- Only nil cannot be a key. -/
theorem isOk_setField_iff (t : Fields P) (k : Option Bytes)
    (v : Option (Value P)) : IsOk (setField t k v) ↔ k ≠ none := by
  cases k with
  | none => exact iff_of_false (not_isOk_error _) (not_not_intro rfl)
  | some k => exact iff_of_true (isOk_ok _) nofun

theorem isOk_setField_some (t : Fields P) (k : Bytes) (v : Option (Value P)) :
    IsOk (setField t (some k) v) :=
  isOk_ok _

theorem isOk_setField_name_iff (t : Fields P) (s : Bytes)
    (v : Option (Value P)) : IsOk (setField t (name s) v) ↔ s ≠ [] := by
  rw [isOk_setField_iff]
  exact not_congr name_eq_none_iff

/-- The empty names that a list would have are skipped. -/
theorem isOk_nameset (s : Bytes) : IsOk (nameset s : Except Error (Value P)) := by
  unfold nameset
  rw [isOk_bind_left fun _ => isOk_pure _,
    isOk_foldlM_iff fun t s => isOk_setField_name_iff t s _]
  intro w hw
  unfold namesplit at hw
  split_ifs at hw with hcomma
  · simpa using (List.mem_filter.mp hw).2
  · exact absurd hw List.not_mem_nil

/-- None of the parsers raises. -/
def ParamParsers.Total (parsers : ParamParsers P) : Prop :=
  ∀ p ∈ parsers, ∀ v, IsOk (p.2 v)

theorem ParamParsers.Total.of_get {parsers : ParamParsers P}
    (h : parsers.Total) {k : Bytes} {parser : ParamParser P}
    (hget : parsers.get k = some parser) (v : Option Bytes) :
    IsOk (parser v) := by
  obtain ⟨p, hfind, rfl⟩ := Option.map_eq_some_iff.mp hget
  exact h p (List.mem_reverse.mp (List.mem_of_find?_eq_some hfind)) v

section ParamParsers

variable (v : Option Bytes)

theorem isOk_noValue : IsOk (noValue v : Result P) := by
  cases v <;> exact isOk_ok _

theorem isOk_optInt : IsOk (optInt v : Result P) := by
  cases v <;> exact isOk_ok _

theorem isOk_mustNameset : IsOk (mustNameset v : Result P) := by
  cases v with
  | none => exact isOk_ok _
  | some s => exact isOk_map_iff.mpr (isOk_nameset s)

theorem isOk_optNameset : IsOk (optNameset v : Result P) := by
  cases v with
  | none => exact isOk_ok _
  | some s => exact isOk_map_iff.mpr (isOk_nameset s)

theorem isOk_mustHex (len : ℕ) : IsOk (mustHex len v : Result P) := by
  cases v with
  | none => exact isOk_ok _
  | some s =>
      simp only [mustHex]
      split_ifs
      · exact isOk_ok _
      · exact isOk_ok _

theorem isOk_mustUrllist : IsOk (mustUrllist v : Result P) := by
  cases v <;> exact isOk_ok _

theorem isOk_mustBool : IsOk (mustBool v : Result P) := by
  cases v with
  | none => exact isOk_ok _
  | some s =>
      simp only [mustBool]
      split_ifs
      · exact isOk_ok _
      · exact isOk_ok _

end ParamParsers

theorem acceptParse_total : (acceptParse : ParamParsers P).Total := by
  simp [ParamParsers.Total, acceptParse, tonumberParam]

theorem teParse_total : (teParse : ParamParsers P).Total := by
  simp [ParamParsers.Total, teParse, isOk_noValue, mustInt]

theorem trencParse_total : (trencParse : ParamParsers P).Total := by
  simp [ParamParsers.Total, trencParse, isOk_noValue]

theorem ccParse_total : (ccParse : ParamParsers P).Total := by
  simp [ParamParsers.Total, ccParse, isOk_noValue, isOk_optInt, isOk_optNameset,
    mustInt]

theorem expectParse_total : (expectParse : ParamParsers P).Total := by
  simp [ParamParsers.Total, expectParse, isOk_noValue]

theorem pragmaParse_total : (pragmaParse : ParamParsers P).Total := by
  simp [ParamParsers.Total, pragmaParse, isOk_noValue]

theorem credentialsParsers_total :
    (credentialsParsers : ParamParsers P).Total := by
  simp [ParamParsers.Total, credentialsParsers, isOk_mustHex, mustValue, mustName]

theorem challengeParsers_total : (challengeParsers : ParamParsers P).Total := by
  simp [ParamParsers.Total, challengeParsers, isOk_mustNameset, isOk_mustUrllist,
    isOk_mustBool, mustValue, mustName]

/-! ## Lists of properties and of parameters -/

section Lists

variable {parsers : ParamParsers P}

theorem kv_eq_ok (h : parsers.Total) (p : Part) :
    ∃ v, kv parsers p = .ok (name p.first, v) := by
  cases hget : (name p.first).bind parsers.get with
  | none => exact ⟨_, by simp only [kv, hget]; rfl⟩
  | some parser =>
      obtain ⟨k, -, hk⟩ := Option.bind_eq_some_iff.mp hget
      obtain ⟨v, hv⟩ := h.of_get hk
        (if p.more[0]? = some (lit "=") then some (p.more[1]?.getD []) else none)
      exact ⟨v, by simp only [kv, hget, hv]; rfl⟩

theorem isOk_kvlist_iff (h : parsers.Total) {sep : String} (hsep : lit sep ≠ [])
    (t : List Bytes) : IsOk (kvlist sep parsers t) ↔ ¬ EmptyHead sep t := by
  unfold kvlist
  rw [← forall_first_tsplit hsep, isOk_foldlM_iff]
  intro dt p
  obtain ⟨v, hv⟩ := kv_eq_ok h p
  simp only [hv]
  exact isOk_setField_name_iff dt p.first v

theorem isOk_propertylist_iff (h : parsers.Total) (s : Bytes) :
    IsOk (propertylist parsers s) ↔ ¬ EmptyHead "," (tokens s) :=
  isOk_kvlist_iff h (by decide) (tokens s)

theorem isOk_properties_iff (h : parsers.Total) (s : Bytes) :
    IsOk (properties parsers s) ↔ ¬ EmptyHead "," (tokens s) := by
  rw [← isOk_propertylist_iff h]
  exact isOk_bind_left fun _ => isOk_pure _

theorem isOk_valueparams_iff (h : parsers.Total) (t : List Bytes) :
    IsOk (valueparams parsers t) ↔ ¬ EmptyParam t := by
  unfold valueparams EmptyParam
  cases paramTokens t with
  | none => exact iff_of_true (isOk_ok _) (by simp)
  | some params => simpa using isOk_kvlist_iff h (by decide) params

theorem isOk_valueparamslist_iff (h : parsers.Total) (s : Bytes) :
    IsOk (valueparamslist parsers s) ↔
      ∀ p ∈ elements s, ¬ EmptyParam p.tokens ∧ p.first ≠ [] := by
  unfold valueparamslist
  rw [isOk_bind_left fun _ => isOk_pure _, isOk_foldlM_iff]
  · rfl
  intro dt p
  rw [isOk_bind_and fun params _ => isOk_setField_name_iff dt p.first _,
    isOk_valueparams_iff h]

end Lists

/-! ## The parsers that may raise -/

/-- `type/subtype`, and anything before the parameters. -/
def Part.IsMediaRange (p : Part) (type_ subtype : Bytes) : Prop :=
  ∃ more, valueTokens p.tokens = type_ :: lit "/" :: subtype :: more

/-- Where the loop of `parse.accept` raises: the parameters have an empty name,
or the type or the subtype is empty and `string.format` refuses nil. -/
def AcceptRaises (P : Platform) (p : Part) : Prop :=
  EmptyParam p.tokens ∨ P.formatsNil = false ∧
    ∃ type_ subtype, p.IsMediaRange type_ subtype ∧ (type_ = [] ∨ subtype = [])

theorem isOk_mediaRange_iff (type_ subtype : Bytes) :
    IsOk (mediaRange P (name type_) (name subtype)) ↔
      ¬ (P.formatsNil = false ∧ (type_ = [] ∨ subtype = [])) := by
  unfold mediaRange
  by_cases ht : type_ = []
  · subst ht
    cases hP : P.formatsNil <;> simp [name]
  · by_cases hs : subtype = []
    · subst hs
      cases hP : P.formatsNil <;> simp [name]
    · simp [name, ht, hs]

/-- What holds of each element that comes after media ranges only. -/
theorem forall_after_cons {α : Type*} {M Q : α → Prop} (a : α) (l : List α) :
    (∀ pre p post, a :: l = pre ++ p :: post → (∀ q ∈ pre, M q) → Q p) ↔
      Q a ∧ (M a → ∀ pre p post, l = pre ++ p :: post → (∀ q ∈ pre, M q) → Q p) := by
  constructor
  · intro h
    refine ⟨h [] a l rfl (by simp), fun ha pre p post hl hpre => ?_⟩
    exact h (a :: pre) p post (by rw [hl, List.cons_append])
      (List.forall_mem_cons.mpr ⟨ha, hpre⟩)
  · rintro ⟨ha, h⟩ pre p post hl hpre
    cases pre with
    | nil =>
        obtain ⟨rfl, -⟩ := List.cons_eq_cons.mp hl
        exact ha
    | cons b pre =>
        obtain ⟨rfl, rfl⟩ := List.cons_eq_cons.mp hl
        obtain ⟨hb, hpre⟩ := List.forall_mem_cons.mp hpre
        exact h hb pre p post rfl hpre

theorem acceptFrom_of_range {p : Part} {type_ subtype : Bytes}
    (h : p.IsMediaRange type_ subtype) (dt : Fields P) (parts : List Part) :
    acceptFrom dt (p :: parts) = (do
      let params ← valueparams acceptParse p.tokens
      let k ← mediaRange P (name type_) (name subtype)
      let dt ← setField dt (some k) (paramsOrTrue params)
      acceptFrom dt parts) := by
  obtain ⟨more, hmore⟩ := h
  simp [acceptFrom, hmore]

theorem isOk_acceptFrom_of_not_range {p : Part}
    (h : ∀ type_ subtype, ¬ p.IsMediaRange type_ subtype) (dt : Fields P)
    (parts : List Part) :
    IsOk (acceptFrom dt (p :: parts)) ↔ ¬ EmptyParam p.tokens := by
  rw [← isOk_valueparams_iff acceptParse_total (P := P)]
  refine isOk_bind_left fun params => ?_
  split
  · next type_ slash subtype more hmore =>
    by_cases hslash : slash = lit "/"
    · subst hslash
      exact absurd ⟨more, hmore⟩ (h type_ subtype)
    · simp [hslash]
  · exact isOk_ok _

theorem Part.IsMediaRange.unique {p : Part} {a b c d : Bytes}
    (h : p.IsMediaRange a b) (h' : p.IsMediaRange c d) : a = c ∧ b = d := by
  obtain ⟨more, hmore⟩ := h
  obtain ⟨more', hmore'⟩ := h'
  rw [hmore] at hmore'
  simp only [List.cons.injEq] at hmore'
  exact ⟨hmore'.1, hmore'.2.2.1⟩

theorem acceptRaises_of_range {p : Part} {type_ subtype : Bytes}
    (h : p.IsMediaRange type_ subtype) :
    AcceptRaises P p ↔ EmptyParam p.tokens ∨
      P.formatsNil = false ∧ (type_ = [] ∨ subtype = []) := by
  unfold AcceptRaises
  refine or_congr_right (and_congr_right fun _ => ⟨?_, fun hnil => ?_⟩)
  · rintro ⟨a, b, hab, hnil⟩
    obtain ⟨rfl, rfl⟩ := hab.unique h
    exact hnil
  · exact ⟨type_, subtype, h, hnil⟩

/-- An element that is not a media range ends the loop, so that the ones after
it cannot raise. -/
theorem isOk_acceptFrom_iff (dt : Fields P) (parts : List Part) :
    IsOk (acceptFrom dt parts) ↔
      ∀ pre p post, parts = pre ++ p :: post →
        (∀ q ∈ pre, ∃ type_ subtype, q.IsMediaRange type_ subtype) →
        ¬ AcceptRaises P p := by
  induction parts generalizing dt with
  | nil => exact iff_of_true (isOk_ok _) (by simp)
  | cons p parts ih =>
      rw [forall_after_cons]
      by_cases hrange : ∃ type_ subtype, p.IsMediaRange type_ subtype
      · have hhere := hrange
        obtain ⟨type_, subtype, h⟩ := hhere
        have hrest := fun (k : Bytes) (v : Option (Value P)) =>
          isOk_bind_and (x := setField dt (some k) v) fun dt _ => ih dt
        rw [acceptFrom_of_range h, acceptRaises_of_range h,
          isOk_bind_and fun params _ => isOk_bind_and fun k _ =>
            (hrest k (paramsOrTrue params)).trans
              (and_iff_right (isOk_setField_some dt k _)),
          isOk_valueparams_iff acceptParse_total, isOk_mediaRange_iff, not_or,
          forall_prop_of_true hrange, and_assoc]
      · have hnot : ∀ type_ subtype, ¬ p.IsMediaRange type_ subtype :=
          fun type_ subtype h => hrange ⟨type_, subtype, h⟩
        have hraises : AcceptRaises P p ↔ EmptyParam p.tokens :=
          or_iff_left fun ⟨_, type_, subtype, h, _⟩ => hnot type_ subtype h
        rw [isOk_acceptFrom_of_not_range hnot, hraises]
        exact (and_iff_left fun h => absurd h hrange).symm

theorem isOk_transferEncoding_iff (s : Bytes) :
    IsOk (transferEncoding s : Result P) ↔
      ∀ p ∈ elements s, ¬ EmptyParam p.tokens ∧ p.first ≠ [] := by
  unfold transferEncoding
  rw [isOk_bind_left fun _ => isOk_pure _, isOk_foldlM_iff]
  · rfl
  intro dt p
  rw [isOk_bind_and fun params _ => (isOk_bind_left fun _ => isOk_pure _).trans
      (isOk_setField_name_iff dt.2 p.first _), isOk_valueparams_iff trencParse_total]

theorem isOk_contentType_iff (s : Bytes) :
    IsOk (contentType s : Result P) ↔ ¬ EmptyParam (tokens s) := by
  have hnone : ParamParsers.Total ([] : ParamParsers P) :=
    fun _ h => absurd h List.not_mem_nil
  rw [← isOk_valueparams_iff hnone]
  refine isOk_bind_left fun params => ?_
  split_ifs
  · exact isOk_pure _
  · exact (isOk_bind_left fun _ => isOk_pure _).mpr (isOk_setField_some _ _ _)

theorem isOk_withScheme (dt : Fields P) (scheme : Option Bytes) :
    IsOk (withScheme dt scheme) :=
  (isOk_bind_left fun _ => isOk_pure _).mpr (isOk_setField_some _ _ _)

theorem isOk_server_iff (s : Bytes) :
    IsOk (server s : Result P) ↔
      ∀ p ∈ elements s, ¬ (p.first = [] ∧ p.more[0]? = some (lit "/")) := by
  unfold server
  rw [isOk_bind_left fun _ => isOk_pure _, isOk_foldlM_iff]
  · rfl
  intro dt p
  by_cases hslash : p.more[0]? = some (lit "/")
  · rw [if_pos hslash, isOk_setField_name_iff]
    simp [hslash]
  · rw [if_neg hslash]
    exact iff_of_true (isOk_ok _) fun h => hslash h.2

theorem isOk_upgrade_iff (s : Bytes) :
    IsOk (upgrade s : Result P) ↔ ¬ EmptyHead "," (tokens s) := by
  unfold upgrade
  rw [isOk_bind_left fun _ => isOk_pure _, ← forall_first_tsplit (by decide),
    isOk_foldlM_iff]
  exact fun dt p => isOk_setField_name_iff dt p.first _

theorem isOk_warning_iff (s : Bytes) :
    IsOk (warning s : Result P) ↔ ∀ p ∈ elements s, p.more ≠ [] := by
  unfold warning
  rw [isOk_bind_left fun _ => isOk_pure _, isOk_mapM_iff]
  · rfl
  intro p
  cases hmore : p.more with
  | nil => simp
  | cons host more => simp

/-- Credentials raise when those of the basic scheme are not in base64, and
when the properties of the digest scheme have an empty name. -/
def CredentialsRaise (P : Platform) (s : Bytes) : Prop :=
  ∃ scheme rest, credentialsPattern.values s = some [scheme, rest] ∧
    (name scheme = some (lit "basic") ∧ P.decode rest = none ∨
      name scheme = some (lit "digest") ∧ EmptyHead "," (tokens rest))

theorem credentialsRaise_iff {s scheme rest : Bytes}
    (h : credentialsPattern.values s = some [scheme, rest]) :
    CredentialsRaise P s ↔
      name scheme = some (lit "basic") ∧ P.decode rest = none ∨
        name scheme = some (lit "digest") ∧ EmptyHead "," (tokens rest) := by
  refine ⟨fun ⟨a, b, hab, hraise⟩ => ?_, fun hraise => ⟨scheme, rest, h, hraise⟩⟩
  rw [h] at hab
  cases hab
  exact hraise

theorem isOk_credentials_iff (s : Bytes) :
    IsOk (credentials s : Result P) ↔ ¬ CredentialsRaise P s := by
  have hne : lit "basic" ≠ lit "digest" := by decide
  unfold credentials
  split
  · next scheme rest hvalues =>
    rw [credentialsRaise_iff hvalues]
    by_cases hbasic : name scheme = some (lit "basic")
    · cases P.decode rest <;> simp [hbasic, hne]
    · by_cases hdigest : name scheme = some (lit "digest")
      · rw [if_neg hbasic, if_pos hdigest,
          isOk_bind_left fun dt => isOk_withScheme dt _,
          isOk_propertylist_iff credentialsParsers_total]
        simp [hdigest, hne.symm]
      · simp [hbasic, hdigest]
  · next hvalues =>
    exact iff_of_true (isOk_ok _) fun ⟨scheme, rest, h, _⟩ => hvalues scheme rest h

/-- Challenges raise when their properties have an empty name. -/
def ChallengesRaise (s : Bytes) : Prop :=
  ∃ scheme rest, challengesPattern.values s = some [scheme, rest] ∧
    EmptyHead "," (tokens rest)

theorem isOk_challenges_iff (s : Bytes) :
    IsOk (challenges s : Result P) ↔ ¬ ChallengesRaise s := by
  unfold challenges ChallengesRaise
  split
  · next scheme rest hvalues =>
    rw [isOk_bind_left fun dt => isOk_withScheme dt _,
      isOk_propertylist_iff challengeParsers_total]
    simp [hvalues]
  · next hvalues =>
    exact iff_of_true (isOk_ok _) fun ⟨scheme, rest, h, _⟩ => hvalues scheme rest h

/-! ## All headers -/

/-- The values of a header that its parser raises on. -/
def Header.Raises (P : Platform) (k : Header) (s : Bytes) : Prop :=
  match k with
  | accept =>
      ∃ pre p post, elements s = pre ++ p :: post ∧
        (∀ q ∈ pre, ∃ type_ subtype, q.IsMediaRange type_ subtype) ∧
        AcceptRaises P p
  | acceptCharset | acceptEncoding | acceptLanguage | te | transferEncoding =>
      ∃ p ∈ elements s, EmptyParam p.tokens ∨ p.first = []
  | authorization | proxyAuthorization => CredentialsRaise P s
  | wwwAuthenticate | proxyAuthenticate => ChallengesRaise s
  | cacheControl | expect | pragma | upgrade => EmptyHead "," (tokens s)
  | contentMd5 => P.decode s = none
  | contentType => EmptyParam (tokens s)
  | server => ∃ p ∈ elements s, p.first = [] ∧ p.more[0]? = some (lit "/")
  | warning => ∃ p ∈ elements s, p.more = []
  | _ => False

theorem isOk_accept_iff (s : Bytes) :
    IsOk (accept s : Result P) ↔ ¬ Header.accept.Raises P s := by
  unfold accept
  rw [isOk_acceptFrom_iff]
  simp [Header.Raises, elements]

/-- The lists of values with parameters. -/
theorem isOk_list_iff (s : Bytes) :
    (∀ p ∈ elements s, ¬ EmptyParam p.tokens ∧ p.first ≠ []) ↔
      ¬ ∃ p ∈ elements s, EmptyParam p.tokens ∨ p.first = [] := by
  simp [not_or]

theorem isOk_contentMd5_iff (s : Bytes) :
    IsOk (contentMd5 s : Result P) ↔ P.decode s ≠ none := by
  unfold contentMd5
  cases P.decode s <;> simp

theorem Header.isOk_parse_iff (k : Header) (s : Bytes) :
    IsOk (k.parse s : Result P) ↔ ¬ k.Raises P s := by
  cases k with
  | accept => exact isOk_accept_iff s
  | acceptCharset | acceptEncoding | acceptLanguage =>
      exact (isOk_valueparamslist_iff acceptParse_total s).trans (isOk_list_iff s)
  | te => exact (isOk_valueparamslist_iff teParse_total s).trans (isOk_list_iff s)
  | transferEncoding =>
      exact (isOk_transferEncoding_iff s).trans (isOk_list_iff s)
  | authorization | proxyAuthorization => exact isOk_credentials_iff s
  | wwwAuthenticate | proxyAuthenticate => exact isOk_challenges_iff s
  | cacheControl => exact isOk_properties_iff ccParse_total s
  | expect => exact isOk_properties_iff expectParse_total s
  | pragma => exact isOk_properties_iff pragmaParse_total s
  | upgrade => exact isOk_upgrade_iff s
  | contentMd5 => exact isOk_contentMd5_iff s
  | contentType => exact isOk_contentType_iff s
  | server =>
      rw [Header.parse, isOk_server_iff]
      simp [Header.Raises]
  | warning =>
      rw [Header.parse, isOk_warning_iff]
      simp [Header.Raises]
  | allow | connection | contentLanguage | trailer | xForwardedFor =>
      exact iff_of_true (isOk_map_iff.mpr (isOk_nameset s)) not_false
  | acceptRanges =>
      refine iff_of_true ?_ not_false
      simp only [Header.parse, Headers.acceptRanges]
      split_ifs
      · exact isOk_ok _
      · exact isOk_map_iff.mpr (isOk_nameset s)
  | vary =>
      refine iff_of_true ?_ not_false
      simp only [Header.parse, Headers.vary]
      split_ifs
      · exact isOk_ok _
      · exact isOk_map_iff.mpr (isOk_nameset s)
  | ifMatch | ifNoneMatch =>
      refine iff_of_true ?_ not_false
      simp only [Header.parse, etags]
      split_ifs <;> exact isOk_ok _
  | _ => exact iff_of_true (isOk_ok _) not_false

/-- The parser of the header, if it has one, raises on the value. -/
def EntryRaises (P : Platform) (entry : Bytes × Bytes) : Prop :=
  ∃ header, Header.ofName entry.1 = some header ∧ header.Raises P entry.2

theorem isOk_parseValue_iff (entry : Bytes × Bytes) :
    IsOk (parseValue entry.1 entry.2 : Result P) ↔ ¬ EntryRaises P entry := by
  unfold parseValue EntryRaises
  cases hk : Header.ofName entry.1 with
  | none => exact iff_of_true (isOk_ok _) fun ⟨_, h, _⟩ => nomatch h
  | some header => simpa using header.isOk_parse_iff entry.2

/-- The header is parsed, or reported in the table of errors. -/
def Settled (d : Parsed P) (entry : Bytes × Bytes) : Prop :=
  (∃ pv, parseValue entry.1 entry.2 = .ok (some pv) ∧
    d.dt.lookup entry.1 = some pv ∧ d.errt.lookup entry.1 = none) ∨
  (parseValue entry.1 entry.2 = (.ok none : Result P) ∧
    d.dt.lookup entry.1 = none ∧
    d.errt.lookup entry.1 = some (invalidValue entry.2))

/-- `parse_values` returns, and settles each header. -/
def ParsesAll (P : Platform) (t : HeaderTable) : Prop :=
  ∃ d : Parsed P, parseValues t = .ok d ∧ ∀ entry ∈ t.entries, Settled d entry

/-- The two tables have the same at the key. -/
def Parsed.SameAt (d d' : Parsed P) (k : Bytes) : Prop :=
  d'.dt.lookup k = d.dt.lookup k ∧ d'.errt.lookup k = d.errt.lookup k

theorem Settled.of_sameAt {d d' : Parsed P} {entry : Bytes × Bytes}
    (h : Settled d entry) (hsame : d.SameAt d' entry.1) : Settled d' entry := by
  simpa only [Settled, hsame.1, hsame.2] using h

theorem parseEntry_cases {d d' : Parsed P} {entry : Bytes × Bytes}
    (h : parseEntry d entry = .ok d') :
    (∃ pv, parseValue entry.1 entry.2 = .ok (some pv) ∧
      d' = { d with dt := (entry.1, pv) :: d.dt }) ∨
    (parseValue entry.1 entry.2 = (.ok none : Result P) ∧
      d' = { d with errt := (entry.1, invalidValue entry.2) :: d.errt }) := by
  obtain ⟨pv, hpv, h⟩ := bind_eq_ok_iff.mp h
  cases pv with
  | some pv =>
      cases h
      exact .inl ⟨pv, hpv, rfl⟩
  | none =>
      cases h
      exact .inr ⟨hpv, rfl⟩

theorem parseEntry_sameAt {d d' : Parsed P} {entry : Bytes × Bytes} {k : Bytes}
    (h : parseEntry d entry = .ok d') (hk : k ≠ entry.1) : d.SameAt d' k := by
  have hkey : (k == entry.1) = false := by simpa using hk
  rcases parseEntry_cases h with ⟨pv, -, rfl⟩ | ⟨-, rfl⟩
  · exact ⟨by simp [List.lookup_cons, hkey], rfl⟩
  · exact ⟨rfl, by simp [List.lookup_cons, hkey]⟩

theorem parseEntry_settled {d d' : Parsed P} {entry : Bytes × Bytes}
    (h : parseEntry d entry = .ok d') (hdt : d.dt.lookup entry.1 = none)
    (herrt : d.errt.lookup entry.1 = none) : Settled d' entry := by
  rcases parseEntry_cases h with ⟨pv, hpv, rfl⟩ | ⟨hpv, rfl⟩
  · exact .inl ⟨pv, hpv, by simp, herrt⟩
  · exact .inr ⟨hpv, hdt, by simp⟩

/-- The headers visited later leave a key alone. -/
theorem foldlM_sameAt {entries : List (Bytes × Bytes)} {d d' : Parsed P}
    {k : Bytes} (h : entries.foldlM parseEntry d = .ok d')
    (hk : k ∉ entries.map Prod.fst) : d.SameAt d' k := by
  induction entries generalizing d with
  | nil =>
      cases h
      exact ⟨rfl, rfl⟩
  | cons entry entries ih =>
      obtain ⟨d₁, hentry, hrest⟩ := bind_eq_ok_iff.mp h
      simp only [List.map_cons, List.mem_cons, not_or] at hk
      have hhere := parseEntry_sameAt hentry hk.1
      have hlater := ih hrest hk.2
      exact ⟨hlater.1.trans hhere.1, hlater.2.trans hhere.2⟩

theorem foldlM_settled {entries : List (Bytes × Bytes)} {d d' : Parsed P}
    (hnodup : (entries.map Prod.fst).Nodup)
    (h : entries.foldlM parseEntry d = .ok d')
    (hdt : ∀ k ∈ entries.map Prod.fst, d.dt.lookup k = none)
    (herrt : ∀ k ∈ entries.map Prod.fst, d.errt.lookup k = none) :
    ∀ entry ∈ entries, Settled d' entry := by
  induction entries generalizing d with
  | nil => exact fun _ h => absurd h List.not_mem_nil
  | cons entry entries ih =>
      obtain ⟨d₁, hentry, hrest⟩ := bind_eq_ok_iff.mp h
      rw [List.map_cons, List.nodup_cons] at hnodup
      have hsame : ∀ k ∈ entries.map Prod.fst, d.SameAt d₁ k := fun k hk =>
        parseEntry_sameAt hentry fun heq => hnodup.1 (heq ▸ hk)
      rw [List.map_cons] at hdt herrt
      refine List.forall_mem_cons.mpr ⟨?_, ih hnodup.2 hrest ?_ ?_⟩
      · have hhere := parseEntry_settled hentry (hdt _ List.mem_cons_self)
          (herrt _ List.mem_cons_self)
        exact hhere.of_sameAt (foldlM_sameAt hrest hnodup.1)
      · exact fun k hk => (hsame k hk).1.trans (hdt k (List.mem_cons_of_mem _ hk))
      · exact fun k hk => (hsame k hk).2.trans (herrt k (List.mem_cons_of_mem _ hk))

theorem isOk_parseEntry_iff (d : Parsed P) (entry : Bytes × Bytes) :
    IsOk (parseEntry d entry) ↔ ¬ EntryRaises P entry := by
  rw [← isOk_parseValue_iff (P := P)]
  refine isOk_bind_left fun pv => ?_
  cases pv <;> exact isOk_ok _

/-- All headers are parsed or reported exactly when none of them raises. -/
theorem parsesAll_iff (P : Platform) (t : HeaderTable) :
    ParsesAll P t ↔ ∀ entry ∈ t.entries, ¬ EntryRaises P entry := by
  have hok : IsOk (parseValues t : Except Error (Parsed P)) ↔
      ∀ entry ∈ t.entries, ¬ EntryRaises P entry :=
    isOk_foldlM_iff (isOk_parseEntry_iff (P := P)) t.entries {}
  rw [← hok]
  constructor
  · rintro ⟨d, hd, -⟩
    exact ⟨d, hd⟩
  · rintro ⟨d, hd⟩
    exact ⟨d, hd, foldlM_settled t.nodup hd (fun _ _ => rfl) fun _ _ => rfl⟩

/-- A platform with decimal numbers, on which no string is in base64 or a date. -/
def decimalPlatform : Platform where
  Num := ℕ
  Date := Empty
  ofNat := id
  tonumber s :=
    if s ≠ [] ∧ s.all isDigit then
      some (s.foldl (fun n b => 10 * n + (b.toNat - 0x30)) 0)
    else none
  isInteger _ := true
  size a b := b - a + 1
  decode _ := none
  date _ := none
  formatsNil := true

/-- `Pragma: ""` -/
def emptyPragma : HeaderTable where
  entries := [(lit "pragma", lit "\"\"")]
  nodup := by simp

/-- The empty string becomes nil, which is no key. -/
theorem raises_on_empty_pragma :
    parseValues emptyPragma = (.error .nilKey : Except Error (Parsed decimalPlatform)) ∧
      ¬ ParsesAll decimalPlatform emptyPragma := by
  have h : parseValues emptyPragma =
      (.error .nilKey : Except Error (Parsed decimalPlatform)) := rfl
  refine ⟨h, ?_⟩
  rintro ⟨d, hd, -⟩
  rw [h] at hd
  cases hd

end LuaAttic.Http.Headers
