import LuaAttic.Http.Percent

/-!
# The authority of a URI, formatted and parsed

`parse` unescapes the authority before it looks for `@` and `:` in it, and then
unescapes what it has cut out once more.  Which authorities are recovered is
decided by the user, pass, host and port themselves.
-/

namespace LuaAttic.Http.Uri

open LuaAttic.Lua

/-! ## The authority after it has been unescaped -/

/-- The two strings that `(.*)` patterns cut out of `host` when it has been
unescaped to `s`, and those cut out of `user`. -/
structure Authority where
  user : Option Bytes
  pass : Option Bytes
  host : Option Bytes
  port : Option Bytes
  deriving DecidableEq, Repr

/-- The user, pass, host and port of a parsed URI. -/
def Uri.authority {α : Type} (t : Uri α) : Authority :=
  ⟨t.user, t.pass, t.host, t.port⟩

/-- Split at the first colon: a user and pass, or a host and port. -/
def splitColon (s : Bytes) : Bytes × Option Bytes :=
  takeOut (restPattern ':') s

/-- What the string before the first `@` and the one after it are taken for. -/
theorem parseAuthority_of_at {s a b : Bytes} {t : Uri ArgTable}
    (hs : unescape s = a ++ 0x40 :: b) (ha : 0x40 ∉ a) :
    (parseAuthority s t).authority =
      ⟨some (splitColon (unescape a)).1,
        (splitColon (unescape a)).2.map unescape,
        some (splitColon b).1, (splitColon b).2.map unescape⟩ := by
  simp only [parseAuthority, hs, takeOut_user ha]
  rfl

theorem splitColon_cases (s : Bytes) :
    (0x3A ∉ s ∧ splitColon s = (s, none)) ∨
      ∃ a b, s = a ++ 0x3A :: b ∧ 0x3A ∉ a ∧ splitColon s = (a, some b) :=
  takeOut_rest_cases ':' s

theorem splitColon_append {a : Bytes} (ha : 0x3A ∉ a) (b : Bytes) :
    splitColon (a ++ 0x3A :: b) = (a, some b) :=
  takeOut_rest (c := ':') ha b

/-- What a colon divides is no longer than the string. -/
theorem length_of_splitColon {s u v : Bytes} (hu : (splitColon s).1 = u)
    (hv : (splitColon s).2.map unescape = some v) :
    u.length + 1 + v.length ≤ s.length ∧
      ∃ w, s = u ++ 0x3A :: w ∧ unescape w = v ∧ 0x3A ∉ u := by
  rcases splitColon_cases s with ⟨-, hsplit⟩ | ⟨a, b, rfl, ha, hsplit⟩
  · rw [hsplit] at hv
    cases hv
  · rw [hsplit] at hu hv
    cases hu
    have hv' : unescape b = v := Option.some.inj hv
    have hle := length_unescape_le b
    rw [hv'] at hle
    refine ⟨?_, b, rfl, hv', ha⟩
    simp only [List.length_append, List.length_cons]
    omega

/-! ## Which strings are recovered -/

/-- The parts that are found again when they are joined and not escaped. -/
def Recovered (user pass host port rest : Bytes) : Prop :=
  0x40 ∉ user ∧ 0x3A ∉ user ∧ EscapeFree user ∧ 0x40 ∉ pass ∧
    EscapeFree pass ∧ 0x3A ∉ host ∧ unescape (port ++ rest) = port

theorem escapeFree_colon {user pass : Bytes}
    (h : unescape (user ++ 0x3A :: pass) = user ++ 0x3A :: pass) :
    EscapeFree user ∧ EscapeFree pass := by
  have hsplit := h
  rw [unescape_append_cons (by decide) (by decide)] at hsplit
  have hlen := congrArg List.length hsplit
  simp only [List.length_append, List.length_cons] at hlen
  have hu := length_unescape_le user
  have hp := length_unescape_le pass
  exact ⟨unescape_eq_self_iff.mp (unescape_eq_self (by omega)),
    unescape_eq_self_iff.mp (unescape_eq_self (by omega))⟩

theorem recovered_of_authority {s user pass host port rest : Bytes}
    {t : Uri ArgTable}
    (hs : unescape s = (user ++ 0x3A :: pass) ++
      0x40 :: (host ++ 0x3A :: (port ++ rest)))
    (h : (parseAuthority s t).authority =
      ⟨some user, some pass, some host, some port⟩) :
    Recovered user pass host port rest := by
  by_cases hat : 0x40 ∈ user ++ 0x3A :: pass
  · -- too little is taken for the user and the pass
    obtain ⟨a, b, hsplit, ha⟩ := List.eq_append_cons_of_mem hat
    rw [hsplit, List.append_assoc, List.cons_append] at hs
    rw [parseAuthority_of_at hs ha, Authority.mk.injEq] at h
    have hle := (length_of_splitColon (Option.some.inj h.1) h.2.1).1
    have hshort := length_unescape_le a
    have hlen := congrArg List.length hsplit
    simp only [List.length_append, List.length_cons] at hlen
    omega
  · rw [parseAuthority_of_at hs hat, Authority.mk.injEq] at h
    obtain ⟨huser, hpass, hhost, hport⟩ := h
    obtain ⟨hle, w, hsplit, -, hcolon⟩ :=
      length_of_splitColon (Option.some.inj huser) hpass
    have hself : unescape (user ++ 0x3A :: pass) = user ++ 0x3A :: pass := by
      apply unescape_eq_self
      simp only [List.length_append, List.length_cons]
      omega
    obtain ⟨huserfree, hpassfree⟩ := escapeFree_colon hself
    obtain ⟨-, w', hsplit', hw', hhostcolon⟩ :=
      length_of_splitColon (Option.some.inj hhost) hport
    have hw : port ++ rest = w' :=
      (List.cons.inj (List.append_cancel_left hsplit')).2
    rw [List.mem_append, List.mem_cons, not_or, not_or] at hat
    exact ⟨hat.1, hcolon, huserfree, hat.2.2, hpassfree, hhostcolon, hw ▸ hw'⟩

theorem authority_of_recovered {s user pass host port rest : Bytes}
    {t : Uri ArgTable}
    (hs : unescape s = (user ++ 0x3A :: pass) ++
      0x40 :: (host ++ 0x3A :: (port ++ rest)))
    (h : Recovered user pass host port rest) :
    (parseAuthority s t).authority =
      ⟨some user, some pass, some host, some port⟩ := by
  obtain ⟨hat, hcolon, huser, hpassat, hpass, hhost, hport⟩ := h
  have hnotMem : 0x40 ∉ user ++ 0x3A :: pass := by
    rw [List.mem_append, List.mem_cons, not_or, not_or]
    exact ⟨hat, by decide, hpassat⟩
  have hself : unescape (user ++ 0x3A :: pass) = user ++ 0x3A :: pass := by
    rw [unescape_append_cons (by decide) (by decide),
      unescape_eq_self_iff.mpr huser, unescape_eq_self_iff.mpr hpass]
  rw [parseAuthority_of_at hs hnotMem, hself, splitColon_append hcolon,
    splitColon_append hhost, Option.map_some, Option.map_some, hport,
    unescape_eq_self_iff.mpr hpass]

/-! ## Formatted authorities -/

/-- A URI with an authority that has all four parts. -/
def withAuthority (t : Uri Args) (user pass host port : Bytes) : Uri Args :=
  { t with
    user := some user
    pass := some pass
    host := some host
    port := some port }

/-- The tokens of an escaped component. -/
def component (s : Bytes) : List Token := s.map (escapeToken "" "")

/-- The tokens of an authority. -/
def authorityTokens (user pass host port : Bytes) : List Token :=
  component user ++ .char 0x3A :: (component pass ++ .char 0x40 ::
    (component host ++ .char 0x3A :: component port))

theorem escape_eq_component (s : Bytes) : escape s "" "" = render (component s) :=
  escape_eq_render (reserved_ok "" (by simp)) s ""

theorem formatAuthority_eq (t : Uri Args) (user pass host port : Bytes) :
    formatAuthority (withAuthority t user pass host port) =
      0x2F :: 0x2F :: render (authorityTokens user pass host port) := by
  simp only [formatAuthority, withAuthority, Option.elim_some,
    escape_eq_component, authorityTokens, render_append, render_cons]
  simp [lit, Token.render, Char.toUInt8]

theorem authorityTokens_value (user pass host port : Bytes) :
    (authorityTokens user pass host port).map Token.value =
      (user ++ 0x3A :: pass) ++ 0x40 :: (host ++ 0x3A :: port) := by
  have hvalue : ∀ s, (component s).map Token.value = s :=
    map_value_escapeToken "" ""
  simp only [authorityTokens, List.map_append, List.map_cons, hvalue,
    Token.value]
  simp

theorem authorityTokens_proper (user pass host port : Bytes) :
    Proper (authorityTokens user pass host port) := by
  have hproper : ∀ s, .char 0x25 ∉ component s := proper_escape "" rfl
  simp [Proper, authorityTokens, hproper]

theorem slash_notMem_authority (user pass host port : Bytes) :
    0x2F ∉ render (authorityTokens user pass host port) := by
  have hslash : ∀ s, .char 0x2F ∉ component s :=
    token_notMem (by decide) ""
  rw [mem_render (by decide) (by decide)]
  simp [authorityTokens, hslash]

/-! ## The path after the authority -/

/-- What the first component of the path stands for. -/
def firstComponent (t : Uri Args) : Bytes :=
  match t.segments with
  | some segments => segments.head?.getD []
  | none => (t.path.getD []).takeWhile (· ≠ 0x2F)

/-- The tokens of a path. -/
def pathTokens (t : Uri Args) : List Token :=
  match t.segments with
  | some segments =>
      concat [.char 0x2F] (segments.map (·.map (escapeToken "/" "")))
  | none => t.path.elim [] (·.map (escapeToken "" "/"))

theorem formatPath_eq (t : Uri Args) : formatPath t = render (pathTokens t) := by
  unfold formatPath pathTokens
  cases t.segments with
  | some segments =>
      dsimp only
      rw [render_concat, List.map_map, formatSegments]
      congr 1
      refine List.map_congr_left fun s _ => ?_
      exact escape_eq_render (reserved_ok "/" (by simp)) s ""
  | none =>
      cases t.path with
      | none => rfl
      | some s => exact escape_eq_render (reserved_ok "" (by simp)) s "/"

/-- A path that is not cut into segments goes on with the first slash. -/
theorem escaped_split (s : Bytes) :
    ∃ first after, s.map (escapeToken "" "/") = first ++ after ∧
      first.map Token.value = s.takeWhile (· ≠ 0x2F) ∧ Proper first ∧
      .char 0x2F ∉ first ∧ after.head?.all (· == .char 0x2F) := by
  refine ⟨(s.takeWhile (· ≠ 0x2F)).map (escapeToken "" "/"),
    (s.dropWhile (· ≠ 0x2F)).map (escapeToken "" "/"), ?_,
    map_value_escapeToken _ _ _, proper_escape "" (by decide) _, ?_, ?_⟩
  · rw [← List.map_append, List.takeWhile_append_dropWhile]
  · intro hmem
    obtain ⟨b, hb, htoken⟩ := List.mem_map.mp hmem
    have hvalue := escapeToken_value "" "/" b
    rw [htoken] at hvalue
    have hne := List.mem_takeWhile_imp hb
    exact absurd hvalue.symm (of_decide_eq_true hne)
  · have hhead := List.head?_dropWhile_not (· ≠ 0x2F) s
    cases hdrop : s.dropWhile (· ≠ 0x2F) with
    | nil => rfl
    | cons b u =>
        rw [hdrop, List.head?_cons] at hhead
        have hb : b = 0x2F := by simpa using hhead
        rw [hb, List.map_cons, List.head?_cons]
        decide

/-- The path goes on with a slash after its first component. -/
theorem pathTokens_split (t : Uri Args) :
    ∃ first after, pathTokens t = first ++ after ∧
      first.map Token.value = firstComponent t ∧ Proper first ∧
      .char 0x2F ∉ first ∧ after.head?.all (· == .char 0x2F) := by
  have hnil : Proper [] := List.not_mem_nil
  unfold pathTokens firstComponent
  cases t.segments with
  | none =>
      cases t.path with
      | none => exact ⟨[], [], rfl, rfl, hnil, List.not_mem_nil, rfl⟩
      | some s => exact escaped_split s
  | some segments =>
      have hsegment : ∀ s : Bytes, Proper (s.map (escapeToken "/" "")) ∧
          .char 0x2F ∉ s.map (escapeToken "/" "") := fun s =>
        ⟨proper_escape "/" rfl s, token_notMem (by decide) "/" s⟩
      rcases segments with _ | ⟨s, _ | ⟨u, segments⟩⟩
      · exact ⟨[], [], rfl, rfl, hnil, List.not_mem_nil, rfl⟩
      · refine ⟨s.map (escapeToken "/" ""), [], by simp, ?_, (hsegment s).1,
          (hsegment s).2, rfl⟩
        exact map_value_escapeToken _ _ _
      · refine ⟨s.map (escapeToken "/" ""), _, concat_cons_cons _ _ _ _, ?_,
          (hsegment s).1, (hsegment s).2, rfl⟩
        exact map_value_escapeToken _ _ _

/-! ## The round trip -/

/-- The characters that a scheme may have. -/
def SchemeOk (t : Uri Args) : Prop :=
  ∀ s, t.scheme = some s → ∀ b ∈ s, schemeChar b = true

theorem escape_of_schemeChar {s : Bytes}
    (h : ∀ b ∈ s, schemeChar b = true) : escape s "" "" = s := by
  have hplain : ∀ b, schemeChar b = true → escapeToken "" "" b = .char b :=
    forall_byte (by decide)
  rw [escape_eq_component, component]
  induction s with
  | nil => rfl
  | cons b s ih =>
      rw [List.map_cons, render_cons, hplain b (h b List.mem_cons_self),
        ih fun d hd => h d (List.mem_cons_of_mem b hd)]
      rfl

/-- An escaped scheme has another character where the scheme has one. -/
theorem exists_not_schemeChar {s : Bytes} (h : ¬ ∀ b ∈ s, schemeChar b = true) :
    ∃ b ∈ escape s "" "", ¬ schemeChar b = true := by
  obtain ⟨b, hb, hnot⟩ : ∃ b ∈ s, ¬ schemeChar b = true := by
    simpa using h
  rw [escape_eq_component]
  have htoken : escapeToken "" "" b ∈ component s :=
    List.mem_map_of_mem hb
  have hrender : ∀ d ∈ (escapeToken "" "" b).render,
      d ∈ render (component s) := fun d hd =>
    List.mem_flatMap.mpr ⟨_, htoken, hd⟩
  unfold escapeToken at hrender
  split_ifs at hrender
  · exact ⟨b, hrender b (List.mem_singleton_self b), hnot⟩
  · exact ⟨0x25, hrender 0x25 List.mem_cons_self, by decide⟩

/-- The string that the scheme is taken out of, with an authority. -/
theorem takeOut_schemePart (t : Uri Args) (user pass host port : Bytes) :
    let front := formatFront (withAuthority t user pass host port)
    (SchemeOk t → (takeOut schemePattern front).1 =
      formatAuthority (withAuthority t user pass host port) ++ formatPath t) ∧
    (¬ SchemeOk t → (takeOut hostPattern (takeOut schemePattern front).1).2 =
      none) := by
  intro front
  have hfront : front =
      (t.scheme.elim [] fun s => escape s "" "" ++ lit ":") ++
        (formatAuthority (withAuthority t user pass host port) ++
          formatPath t) := List.append_assoc _ _ _
  rw [hfront]
  cases hscheme : t.scheme with
  | none =>
      refine ⟨fun _ => ?_, fun hnot => ?_⟩
      · rw [Option.elim_none, List.nil_append, formatAuthority_eq,
          List.cons_append, takeOut_scheme_of_ne]
        rw [List.dropWhile_cons_of_neg (by decide), List.head?_cons]
        decide
      · exact absurd (fun s hs => nomatch hscheme.symm.trans hs) hnot
  | some s =>
      have hcolon : 0x3A ∉ escape s "" "" :=
        escape_notMem (by decide) (by simp) s
      have hslash : 0x2F ∉ escape s "" "" :=
        escape_notMem (by decide) (by simp) s
      have hok : SchemeOk t ↔ ∀ b ∈ s, schemeChar b = true := by
        rw [SchemeOk, hscheme]
        exact ⟨fun h => h s rfl, fun h u hu => Option.some.inj hu ▸ h⟩
      have hlit : lit ":" = [0x3A] := rfl
      rw [hok, Option.elim_some, hlit, List.append_assoc, List.singleton_append]
      refine ⟨fun h => ?_, fun h => ?_⟩
      · rw [escape_of_schemeChar h, takeOut_scheme h]
      · obtain ⟨b, hb, hnot⟩ := exists_not_schemeChar h
        cases hdrop : (escape s "" "").dropWhile schemeChar with
        | nil =>
            rw [List.dropWhile_eq_nil_iff] at hdrop
            exact absurd (hdrop b hb) hnot
        | cons d u =>
            have hmem : d ∈ escape s "" "" :=
              (List.dropWhile_sublist _).subset (hdrop ▸ List.mem_cons_self)
            have hne : escape s "" "" ≠ [] := List.ne_nil_of_mem hmem
            rw [takeOut_scheme_of_ne, takeOut_host_of_ne]
            · obtain ⟨e, v, heq⟩ := List.exists_cons_of_ne_nil hne
              rw [heq, List.cons_append, List.head?_cons]
              rintro ⟨⟩
              exact hslash (heq ▸ List.mem_cons_self)
            · rw [List.dropWhile_append, hdrop, List.isEmpty_cons,
                if_neg Bool.false_ne_true, List.cons_append, List.head?_cons]
              rintro ⟨⟩
              exact hcolon hmem

/-- What is cut out of the front for the authority. -/
theorem takeOut_authority (t : Uri Args) (user pass host port : Bytes) :
    ∃ first, Proper first ∧ first.map Token.value = firstComponent t ∧
      (takeOut hostPattern
        (formatAuthority (withAuthority t user pass host port) ++
          formatPath t)).2 =
        some (render (authorityTokens user pass host port ++ first)) := by
  obtain ⟨first, after, hsplit, hvalue, hproper, hslash, hafter⟩ :=
    pathTokens_split t
  refine ⟨first, hproper, hvalue, ?_⟩
  have hnotMem : 0x2F ∉ render (authorityTokens user pass host port ++ first) := by
    rw [render_append, List.mem_append, not_or]
    exact ⟨slash_notMem_authority user pass host port,
      mt (mem_render (by decide) (by decide)).mp hslash⟩
  have hhead : (render after).head?.all (· == 0x2F) := by
    rcases after with _ | ⟨token, after⟩
    · rfl
    · have htoken : token = .char 0x2F := by simpa using hafter
      rw [htoken]
      rfl
  rw [formatAuthority_eq, formatPath_eq, hsplit, render_append,
    List.cons_append, List.cons_append, ← List.append_assoc, ← render_append,
    takeOut_host hnotMem hhead]

/-- The authority of the parsed string, from what is cut out for it. -/
theorem parse_authority (t : Uri Args) :
    ∃ t₀ : Uri ArgTable, t₀.authority = ⟨none, none, none, none⟩ ∧
      parse (format t) =
        match (takeOut hostPattern
          (takeOut schemePattern (formatFront t)).1).2 with
        | some s => parseAuthority s t₀
        | none => t₀ := by
  obtain ⟨hfragment, hquery⟩ := takeOut_format t
  obtain ⟨f, hf⟩ : ∃ f, takeOut (restPattern '#') (format t) =
      (formatFront t ++ formatQuery t, f) := ⟨_, Prod.ext hfragment rfl⟩
  simp only [parse, hf, hquery]
  exact ⟨_, rfl, rfl⟩

/-- What is recovered of a URI with an authority. -/
def AuthorityOk (t : Uri Args) (user pass host port : Bytes) : Prop :=
  SchemeOk t ∧ Recovered user pass host port (firstComponent t)

/-- The user, pass, host and port of a URI are recovered from its formatted
string exactly when nothing in them is decoded twice, the user has no `@` and
no colon, the pass no `@` and the host no colon; with a scheme of letters,
`+`, `-` and `.`, and a path that does not run into the port. -/
theorem authority_recovered_iff (t : Uri Args) (user pass host port : Bytes) :
    (parse (format (withAuthority t user pass host port))).authority =
        ⟨some user, some pass, some host, some port⟩ ↔
      AuthorityOk t user pass host port := by
  obtain ⟨t₀, ht₀, hparse⟩ := parse_authority (withAuthority t user pass host port)
  obtain ⟨hgood, hbad⟩ := takeOut_schemePart t user pass host port
  rw [hparse]
  by_cases hscheme : SchemeOk t
  · obtain ⟨first, hproper, hvalue, hhost⟩ :=
      takeOut_authority t user pass host port
    have hunescape : unescape (render (authorityTokens user pass host port ++
        first)) = (user ++ 0x3A :: pass) ++ 0x40 :: (host ++ 0x3A ::
          (port ++ firstComponent t)) := by
      have hall : Proper (authorityTokens user pass host port ++ first) := by
        rw [Proper, List.mem_append, not_or]
        exact ⟨authorityTokens_proper user pass host port, hproper⟩
      rw [unescape_render_self hall, List.map_append, authorityTokens_value,
        hvalue]
      simp
    rw [hgood hscheme, hhost, AuthorityOk, and_iff_right hscheme]
    exact ⟨recovered_of_authority hunescape, authority_of_recovered hunescape⟩
  · rw [hbad hscheme]
    refine iff_of_false (fun h => ?_) (fun h => hscheme h.1)
    exact nomatch ht₀.symm.trans h

/-- A user with an `@`, and one in which a `%` is followed by two digits. -/
theorem authority_lost :
    let t : Uri Args := ⟨none, none, none, none, none, none, none, none, none,
      none⟩
    let parsed := fun user =>
      (parse (format (withAuthority t user (lit "p") (lit "h") (lit "1")))).authority
    parsed (lit "a@b") =
        ⟨some (lit "a"), none, some (lit "b"), some (lit "p@h:1")⟩ ∧
      parsed (lit "%41") =
        ⟨some (lit "A"), some (lit "p"), some (lit "h"), some (lit "1")⟩ := by
  decide

end LuaAttic.Http.Uri
