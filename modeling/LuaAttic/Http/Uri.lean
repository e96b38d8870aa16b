import LuaAttic.Lua.Glue
import Mathlib.Logic.Function.Basic

/-!
# URIs (`uri.lua`)

Formatting escapes each component of a URI and joins them.  Parsing cuts the
string up with patterns and unescapes what it cuts out.
-/

namespace LuaAttic.Http.Uri

open LuaAttic.Lua Function

/-- The fields of a URI; the arguments of its query are of the given type. -/
structure Uri (α : Type) where
  scheme : Option Bytes
  user : Option Bytes
  pass : Option Bytes
  host : Option Bytes
  port : Option Bytes
  segments : Option (List Bytes)
  path : Option Bytes
  args : Option α
  query : Option Bytes
  fragment : Option Bytes

/-- A table of arguments, in the order in which it is traversed. -/
structure Args where
  pairs : List (Bytes × Bytes)
  nodup : (pairs.map Prod.fst).Nodup

/-! ## Formatting -/

/-- What is left as it is: the `unreserved` and `sub-delims` characters. -/
def unreservedChar : CharClass := fun b =>
  isAlnum b || oneOf "-._~!$&'()*+,;=" b

/-- `('%%%02x'):format(c:byte())` -/
def esc (values : List Bytes) : Option Bytes :=
  match values with
  | [[b]] => some (0x25 :: hexByte b)
  | _ => none

/-- Escape all characters but those and the ones of `unreserved`, and the ones
of `reserved`. -/
def escape (s : Bytes) (reserved unreserved : String) : Bytes :=
  let s := gsub ⟨[.one fun b => !(unreservedChar b || oneOf unreserved b)],
    false⟩ esc s
  if reserved = "" then s else gsub ⟨[.one (oneOf reserved)], false⟩ esc s

/-- `s:gsub(' ', '+')` -/
def spaceToPlus (s : Bytes) : Bytes :=
  gsub ⟨[.one (chr ' ')], false⟩ (fun _ => some (lit "+")) s

def formatArg (k v : Bytes) : Bytes :=
  escape (spaceToPlus k) "&=" "" ++ lit "=" ++ escape (spaceToPlus v) "&" ""

/-- `table.concat(dt, sep)` -/
def concat {α : Type} (sep : List α) (dt : List (List α)) : List α :=
  (dt.intersperse sep).flatten

def formatArgs (args : Args) : Bytes :=
  concat (lit "&") (args.pairs.map fun kv => formatArg kv.1 kv.2)

def formatSegments (segments : List Bytes) : Bytes :=
  concat (lit "/") (segments.map fun s => escape s "/" "")

/-- The user, host and port, with what marks them off. -/
def formatAuthority {α : Type} (t : Uri α) : Bytes :=
  let pass := t.pass.elim [] fun s => lit ":" ++ escape s "" ""
  let user := t.user.elim [] fun s => escape s "" "" ++ pass ++ lit "@"
  let port := t.port.elim [] fun s => lit ":" ++ escape s "" ""
  t.host.elim [] fun s => lit "//" ++ (user ++ escape s "" "" ++ port)

/-- Segments override the path. -/
def formatPath {α : Type} (t : Uri α) : Bytes :=
  match t.segments with
  | some segments => formatSegments segments
  | none => t.path.elim [] fun s => escape s "" "/"

/-- Arguments override the query. -/
def formatQuery (t : Uri Args) : Bytes :=
  match t.args with
  | some args => lit "?" ++ formatArgs args
  | none => t.query.elim [] fun s => lit "?" ++ escape (spaceToPlus s) "" ""

def format (t : Uri Args) : Bytes :=
  let scheme := t.scheme.elim [] fun s => escape s "" "" ++ lit ":"
  let fragment := t.fragment.elim [] fun s => lit "#" ++ escape s "" ""
  scheme ++ formatAuthority t ++ formatPath t ++ formatQuery t ++ fragment

/-! ## Parsing -/

/-- `'%%(%x%x)'` -/
def escapePattern : Pattern where
  items := [.one (chr '%'), .capStart, .one isXDigit, .one isXDigit, .capStop]

/-- `string.char(tonumber(hex, 16))` -/
def unesc (values : List Bytes) : Option Bytes :=
  match values with
  | [hex] => (tonumber16 hex).map fun n => [UInt8.ofNat n]
  | _ => none

def unescape (s : Bytes) : Bytes := gsub escapePattern unesc s

def parsePath (s : Bytes) : List Bytes :=
  (gsplit ⟨[.one (chr '/')], false⟩ s).map unescape

/-- `s:gsub('+', ' ')` -/
def plusToSpace (s : Bytes) : Bytes :=
  gsub ⟨[.one (chr '+')], false⟩ (fun _ => some (lit " ")) s

/-- `'^([^=]*)=?(.*)$'` -/
def argPattern : Pattern where
  items := [.capStart, .star (noneOf "="), .capStop, .opt (chr '='), .capStart,
    .star anyChar, .capStop, .atEnd]
  anchored := true

/-- The arguments as a table. -/
abbrev ArgTable := Bytes → Option Bytes

def Args.table (args : Args) : ArgTable := fun k => args.pairs.lookup k

/-- One argument is put into the table. -/
def parseArg (t : ArgTable) (s : Bytes) : ArgTable :=
  match argPattern.values s with
  | some [k, v] =>
      let k := unescape (plusToSpace k)
      let v := unescape (plusToSpace v)
      if k ≠ [] ∨ v ≠ [] then update t k (some v) else t
  | _ => t

def parseQuery (s : Bytes) : ArgTable :=
  (gsplit ⟨[.plus (oneOf "&;")], false⟩ s).foldl parseArg fun _ => none

/-- `s:gsub(p, function(s) x = s return '' end)`: what is left, and what `x` is
set to. -/
def takeOut (p : Pattern) (s : Bytes) : Bytes × Option Bytes :=
  (gsub p (fun _ => some []) s,
    ((p.pieces s).filterMap fun
      | .char _ => none
      | .hit _ values => values.head?).getLast?)

/-- `c(.*)` for a character `c`. -/
def restPattern (c : Char) : Pattern where
  items := [.one (chr c), .capStart, .star anyChar, .capStop]

/-- `[a-zA-Z%+%-%.]` -/
def schemeChar : CharClass := fun b => isAlpha b || oneOf "+-." b

/-- `'^([a-zA-Z%+%-%.]*):'` -/
def schemePattern : Pattern where
  items := [.capStart, .star schemeChar, .capStop, .one (chr ':')]
  anchored := true

/-- `'^//([^/]*)'` -/
def hostPattern : Pattern where
  items := [.one (chr '/'), .one (chr '/'), .capStart, .star (noneOf "/"),
    .capStop]
  anchored := true

/-- `'^(.-)@'` -/
def userPattern : Pattern where
  items := [.capStart, .lazy anyChar, .capStop, .one (chr '@')]
  anchored := true

/-- The user, pass, host and port, from what stands between `//` and the
path. -/
def parseAuthority (s : Bytes) (t : Uri ArgTable) : Uri ArgTable :=
  let host := unescape s
  let (host, user) := takeOut userPattern host
  let (host, port) := takeOut (restPattern ':') host
  let t := { t with host := some host, port := port.map unescape }
  match user with
  | some user =>
      let (user, pass) := takeOut (restPattern ':') (unescape user)
      { t with user := some user, pass := pass.map unescape }
  | none => t

def parse (s : Bytes) : Uri ArgTable :=
  let (s, fragment) := takeOut (restPattern '#') s
  let (s, query) := takeOut (restPattern '?') s
  let (s, scheme) := takeOut schemePattern s
  let (s, host) := takeOut hostPattern s
  let t : Uri ArgTable :=
    { scheme := scheme.map unescape
      user := none
      pass := none
      host := none
      port := none
      segments := if s ≠ [] then some (parsePath s) else none
      path := if s ≠ [] then some (unescape s) else none
      args := query.map parseQuery
      query := query.map unescape
      fragment := fragment.map unescape }
  match host with
  | some host => parseAuthority host t
  | none => t

/-! ## Taking out -/

section TakeOut

variable {p : Pattern}

/-- Nothing matches. -/
theorem takeOut_of_chars {s : Bytes} (h : p.pieces s = s.map .char) :
    takeOut p s = (s, none) := by
  rw [takeOut, gsub, h, List.flatMap_map, List.filterMap_map]
  simp

/-- There is one match. -/
theorem takeOut_of_hit {s a b whole v : Bytes}
    (h : p.pieces s = a.map .char ++ .hit whole [v] :: b.map .char) :
    takeOut p s = (a ++ b, some v) := by
  rw [takeOut, gsub, h]
  simp [List.flatMap_map]

theorem matchItems_rest (c : Char) (s : Bytes) :
    matchItems (restPattern c).items [] (c.toUInt8 :: s ++ []) =
      some ([], [.closed s]) := by
  rw [List.append_nil, restPattern, matchItems, if_pos (by simp), matchItems,
    matchItems, maxExpand_of_isSome]
  · simp [matchItems, closeLast]
  · rfl

theorem rest_notMem {c : Char} {s t : Bytes} (hs : c.toUInt8 ∉ s) (y z : Bytes)
    (h : s = y ++ z) (hz : z ≠ []) :
    (restPattern c).matchHere (z ++ t) = none := by
  apply matchHere_eq_none
  obtain ⟨b, z, rfl⟩ := List.exists_cons_of_ne_nil hz
  have hb : b ≠ c.toUInt8 := by
    rintro rfl
    exact hs (h ▸ List.mem_append_right y List.mem_cons_self)
  simp [restPattern, matchItems, hb]

theorem takeOut_rest_of_notMem {c : Char} {s : Bytes} (hs : c.toUInt8 ∉ s) :
    takeOut (restPattern c) s = (s, none) := by
  apply takeOut_of_chars
  have h := piecesFrom_append (s := []) (rest_notMem hs)
  rw [List.append_nil] at h
  simpa [Pattern.pieces, restPattern, Pattern.piecesFrom, Pattern.matchHere,
    matchItems] using h

/-- What is taken out starts at the first `c`. -/
theorem takeOut_rest {c : Char} {a : Bytes} (ha : c.toUInt8 ∉ a) (b : Bytes) :
    takeOut (restPattern c) (a ++ c.toUInt8 :: b) = (a, some b) := by
  have hhit := piecesFrom_hit (matchHere_append (matchItems_rest c b))
    (List.cons_ne_nil _ _)
  have hpieces : (restPattern c).pieces (a ++ c.toUInt8 :: b) =
      a.map .char ++ .hit (c.toUInt8 :: b) [b] :: ([] : Bytes).map .char := by
    rw [Pattern.pieces, if_neg (by simp [restPattern]),
      piecesFrom_append (rest_notMem ha)]
    rw [List.append_nil] at hhit
    rw [hhit]
    rfl
  rw [takeOut_of_hit hpieces, List.append_nil]

/-- The two cases of what is taken out from some `c` on. -/
theorem takeOut_rest_cases (c : Char) (s : Bytes) :
    (c.toUInt8 ∉ s ∧ takeOut (restPattern c) s = (s, none)) ∨
      ∃ a b, s = a ++ c.toUInt8 :: b ∧ c.toUInt8 ∉ a ∧
        takeOut (restPattern c) s = (a, some b) := by
  by_cases hc : c.toUInt8 ∈ s
  · obtain ⟨a, b, rfl, ha⟩ := List.eq_append_cons_of_mem hc
    exact Or.inr ⟨a, b, rfl, ha, takeOut_rest ha b⟩
  · exact Or.inl ⟨hc, takeOut_rest_of_notMem hc⟩

/-- What is marked by a `c` that is not found before it is taken out. -/
theorem takeOut_marked {c : Char} {a rest : Bytes} (ha : c.toUInt8 ∉ a)
    (hrest : rest.head?.all (· == c.toUInt8)) :
    takeOut (restPattern c) (a ++ rest) = (a, rest.head?.map fun _ => rest.tail) := by
  rcases rest with _ | ⟨b, rest⟩
  · rw [List.append_nil]
    exact takeOut_rest_of_notMem ha
  · have hb : b = c.toUInt8 := by simpa using hrest
    subst hb
    exact takeOut_rest ha rest

theorem takeOut_of_matchHere_none {s : Bytes} (hp : p.anchored = true)
    (h : p.matchHere s = none) : takeOut p s = (s, none) := by
  apply takeOut_of_chars
  rw [Pattern.pieces, if_pos hp, h]

theorem takeOut_of_matchHere {s whole v rest : Bytes} (hp : p.anchored = true)
    (h : p.matchHere s = some ⟨whole, [v], rest⟩) :
    takeOut p s = (rest, some v) := by
  have hpieces : p.pieces s =
      ([] : Bytes).map .char ++ .hit whole [v] :: rest.map .char := by
    rw [Pattern.pieces, if_pos hp, h]
    rfl
  rw [takeOut_of_hit hpieces, List.nil_append]

/-- The user is what stands before the first `@`. -/
theorem takeOut_user {a : Bytes} (ha : 0x40 ∉ a) (b : Bytes) :
    takeOut userPattern (a ++ 0x40 :: b) = (b, some a) := by
  have hclose : closeLast (0x40 :: b) [.opened (a ++ 0x40 :: b)] =
      [.closed a] := by
    simp [closeLast]
  have hitems : matchItems userPattern.items [] ((a ++ [0x40]) ++ b) =
      some (b, [.closed a]) := by
    rw [List.append_assoc, List.singleton_append, userPattern, matchItems,
      matchItems, minExpand_append (fun b _ => anyChar_apply b)]
    · simp only [matchItems, List.nil_append, hclose]
      rfl
    · intro y z hyz hz
      obtain ⟨d, z, rfl⟩ := List.exists_cons_of_ne_nil hz
      have hd : d ≠ 0x40 := by
        rintro rfl
        exact ha (hyz ▸ List.mem_append_right y List.mem_cons_self)
      simpa [matchItems, Char.toUInt8] using hd
    · rfl
  have hhere := matchHere_append hitems
  rw [List.append_assoc, List.singleton_append] at hhere
  exact takeOut_of_matchHere rfl hhere

/-- The authority reaches to the first slash. -/
theorem takeOut_host {a rest : Bytes} (ha : 0x2F ∉ a)
    (hrest : rest.head?.all (· == 0x2F)) :
    takeOut hostPattern (0x2F :: 0x2F :: (a ++ rest)) = (rest, some a) := by
  have hdrop : (a ++ rest).dropWhile (noneOf "/") = rest := by
    rw [List.dropWhile_append_of_pos]
    · cases rest with
      | nil => rfl
      | cons d rest =>
          have hd : d = 0x2F := by simpa using hrest
          subst hd
          rfl
    · intro b hb
      have hne : b ≠ 0x2F := fun heq => ha (heq ▸ hb)
      simpa [noneOf, lit, Char.toUInt8] using hne
  have hitems : matchItems hostPattern.items []
      ((0x2F :: 0x2F :: a) ++ rest) = some (rest, [.closed a]) := by
    rw [List.cons_append, List.cons_append, hostPattern, matchItems,
      if_pos (by decide), matchItems, if_pos (by decide), matchItems,
      matchItems, maxExpand_of_isSome rfl, hdrop]
    simp [matchItems, closeLast]
  exact takeOut_of_matchHere rfl (matchHere_append hitems)

theorem takeOut_host_of_ne {s : Bytes} (hs : s.head? ≠ some 0x2F) :
    takeOut hostPattern s = (s, none) := by
  refine takeOut_of_matchHere_none rfl (matchHere_eq_none ?_)
  rcases s with _ | ⟨b, s⟩
  · rfl
  · have hb : b ≠ 0x2F := by simpa using hs
    rw [hostPattern, matchItems]
    exact if_neg (by simpa [Char.toUInt8] using hb)

theorem matchItems_scheme (s : Bytes) :
    matchItems schemePattern.items [] s =
      matchItems [.one (chr ':')]
        [.closed (s.takeWhile schemeChar)] (s.dropWhile schemeChar) := by
  rw [schemePattern, matchItems, matchItems, maxExpand_of_head]
  · rw [matchItems, List.nil_append, closeLast_dropWhile]
  · intro b t hb
    have hne : b ≠ 0x3A := by
      rintro rfl
      exact absurd hb (by decide)
    simpa [matchItems, Char.toUInt8] using hne

/-- A scheme of the right characters is found. -/
theorem takeOut_scheme {a : Bytes} (ha : ∀ b ∈ a, schemeChar b = true)
    (s : Bytes) : takeOut schemePattern (a ++ 0x3A :: s) = (s, some a) := by
  have hdrop : (a ++ 0x3A :: s).dropWhile schemeChar = 0x3A :: s := by
    rw [List.dropWhile_append_of_pos ha]
    exact List.dropWhile_cons_of_neg (by decide)
  have htake : (a ++ 0x3A :: s).takeWhile schemeChar = a := by
    rw [List.takeWhile_append_of_pos ha, List.takeWhile_cons_of_neg (by decide),
      List.append_nil]
  have hitems : matchItems schemePattern.items [] ((a ++ [0x3A]) ++ s) =
      some (s, [.closed a]) := by
    rw [List.append_assoc, List.singleton_append, matchItems_scheme, hdrop,
      htake]
    rfl
  have hhere := matchHere_append hitems
  rw [List.append_assoc, List.singleton_append] at hhere
  exact takeOut_of_matchHere rfl hhere

/-- What does not start with such characters and a colon has no scheme. -/
theorem takeOut_scheme_of_ne {s : Bytes}
    (hs : (s.dropWhile schemeChar).head? ≠ some 0x3A) :
    takeOut schemePattern s = (s, none) := by
  refine takeOut_of_matchHere_none rfl (matchHere_eq_none ?_)
  rw [matchItems_scheme]
  cases hdrop : s.dropWhile schemeChar with
  | nil => rfl
  | cons b t =>
      rw [hdrop, List.head?_cons] at hs
      have hb : b ≠ 0x3A := fun heq => hs (congrArg some heq)
      simpa [matchItems, Char.toUInt8] using hb

end TakeOut

end LuaAttic.Http.Uri
