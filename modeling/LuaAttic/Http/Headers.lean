import LuaAttic.Http.HeaderTokens

/-!
# The parsers of header values (`http_headers.lua`)

A parser returns a value, or nil for a value that is not valid, or raises.
Numbers, dates and the decoder of base64 are those of a platform.
-/

namespace LuaAttic.Http.Headers

open LuaAttic.Lua

/-! ## Values -/

/-- What the parsers take from elsewhere. -/
structure Platform where
  Num : Type
  Date : Type
  ofNat : ℕ → Num
  /-- `tonumber(s)` -/
  tonumber : Bytes → Option Num
  /-- `math.floor(n) == n` -/
  isInteger : Num → Bool
  /-- `to - from + 1` -/
  size : Num → Num → Num
  /-- `b64.decode_string(s)` -/
  decode : Bytes → Option Bytes
  /-- `http_date.parse(s)` -/
  date : Bytes → Option Date
  /-- whether `string.format` writes nil for `%s`, or raises as in Lua 5.1 -/
  formatsNil : Bool

/-- The errors that the parsers raise. -/
inductive Error
  /-- a table is indexed with nil for an assignment -/
  | nilKey
  /-- a method of nil is called -/
  | nilIndex
  /-- nil is passed where a string is needed -/
  | badArgument
  deriving DecidableEq, Repr

/-- A value other than nil. -/
inductive Value (P : Platform)
  | bool (b : Bool)
  | str (s : Bytes)
  | num (n : P.Num)
  | date (d : P.Date)
  /-- the elements at one, two and so on, and those at strings -/
  | table (array : List (Value P)) (fields : List (Bytes × Value P))

variable {P : Platform}

/-- The fields of a table. -/
abbrev Fields (P : Platform) := List (Bytes × Value P)

/-- What a parser returns; none is nil. -/
abbrev Result (P : Platform) := Except Error (Option (Value P))

/-- `t[k] = v` -/
def setField (t : Fields P) (k : Option Bytes) (v : Option (Value P)) :
    Except Error (Fields P) :=
  match k with
  | some k => .ok (t.filter (·.1 ≠ k) ++ (v.map (k, ·)).toList)
  | none => .error .nilKey

/-- A table written out; a field with nil is not there. -/
def record (fields : List (String × Option (Value P))) : Value P :=
  .table [] (fields.filterMap fun f => f.2.map (lit f.1, ·))

/-- A string or nil. -/
def strOf (s : Option Bytes) : Option (Value P) := s.map .str

/-! ## Simple values -/

/-- `int(s)` -/
def int (P : Platform) (s : Bytes) : Option P.Num :=
  (P.tonumber s).filter P.isInteger

def intValue (s : Bytes) : Option (Value P) := (int P s).map .num

def dateValue (s : Bytes) : Option (Value P) := (P.date s).map .date

/-- `qstring(s)` -/
def qstring (s : Bytes) : Option Bytes :=
  match Pattern.values ⟨[.one (chr '"'), .capStart, .lazy anyChar, .capStop,
      .one (chr '"'), .atEnd], true⟩ s with
  | some [w] => some (unquote w)
  | _ => none

/-- `nameset(s)` -/
def nameset (s : Bytes) : Except Error (Value P) := do
  let t ← (namesplit s).foldlM
    (fun (t : Fields P) s => setField t (name s) (some (.bool true))) []
  return .table [] t

/-- `namelist(s)` -/
def namelist (s : Bytes) : Value P :=
  .table ((namesplit s).filterMap fun s => (name s).map .str) []

/-! ## Parameters -/

/-- A parser for the value of a parameter, which is a string, or true for a
parameter without one. -/
abbrev ParamParser (P : Platform) := Option Bytes → Result P

/-- The parsers of some parameters; of two for one name the last one counts. -/
abbrev ParamParsers (P : Platform) := List (String × ParamParser P)

def ParamParsers.get (parsers : ParamParsers P) (k : Bytes) :
    Option (ParamParser P) :=
  (parsers.reverse.find? fun p => lit p.1 == k).map Prod.snd

def noValue : ParamParser P
  | none => .ok (some (.bool true))
  | some _ => .ok none

def mustValue : ParamParser P := fun v => .ok (strOf v)

def mustInt : ParamParser P := fun v => .ok (v.bind intValue)

def optInt : ParamParser P
  | none => .ok (some (.bool true))
  | some s => .ok (intValue s)

def mustName : ParamParser P := fun v => .ok (strOf (v.bind name))

def mustNameset : ParamParser P
  | none => .ok none
  | some s => some <$> nameset s

def optNameset : ParamParser P
  | none => .ok (some (.bool true))
  | some s => some <$> nameset s

/-- `tonumber`, which returns nil for true. -/
def tonumberParam : ParamParser P := fun v =>
  .ok ((v.bind P.tonumber).map .num)

def mustHex (len : ℕ) : ParamParser P
  | none => .ok none
  | some s =>
      if s.length = len then
        .ok (strOf ((Pattern.values ⟨[.plus isXDigit, .atEnd], true⟩ s).bind
          List.head?))
      else .ok none

def mustUrllist : ParamParser P
  | none => .ok none
  | some s =>
      .ok (some (.table ((gsplit ⟨[.one (chr ' ')], false⟩ s).map .str) []))

def mustBool : ParamParser P
  | none => .ok none
  | some s =>
      let s := lower s
      if s = lit "true" ∨ s = lit "false" then
        .ok (some (.bool (decide (s = lit "true"))))
      else .ok none

/-- `kv(t, parsers, i, j)` -/
def kv (parsers : ParamParsers P) (p : Part) :
    Except Error (Option Bytes × Option (Value P)) :=
  let k := name p.first
  -- the equals sign stands for an empty value
  let v := if p.more[0]? = some (lit "=") then some (p.more[1]?.getD []) else none
  match k.bind parsers.get with
  | some parser => do return (k, ← parser v)
  | none => .ok (k, some (v.elim (.bool true) .str))

/-- `kvlist(t, sep, parsers, i, j)` -/
def kvlist (sep : String) (parsers : ParamParsers P) (t : List Bytes) :
    Except Error (Fields P) :=
  (tsplit t (lit sep)).foldlM (fun dt p => do
    let (k, v) ← kv parsers p
    setField dt k v) []

/-- `propertylist(s, parsers)` -/
def propertylist (parsers : ParamParsers P) (s : Bytes) :
    Except Error (Fields P) :=
  kvlist "," parsers (tokens s)

/-- The tokens before the parameters. -/
def valueTokens (t : List Bytes) : List Bytes := t.takeWhile (· ≠ lit ";")

/-- The tokens of the parameters, if there are any. -/
def paramTokens (t : List Bytes) : Option (List Bytes) :=
  match t.dropWhile (· ≠ lit ";") with
  | [] => none
  | _ :: params => some params

/-- The parameters that `valueparams(t, parsers, i, j)` returns. -/
def valueparams (parsers : ParamParsers P) (t : List Bytes) :
    Except Error (Option (Fields P)) :=
  match paramTokens t with
  | some params => some <$> kvlist ";" parsers params
  | none => .ok none

/-- `params or true` -/
def paramsOrTrue (params : Option (Fields P)) : Option (Value P) :=
  some (params.elim (.bool true) (.table []))

/-! ## Headers with parameters -/

def acceptParse : ParamParsers P := [("q", tonumberParam)]

/-- `string.format('%s/%s', type_, subtype)` -/
def mediaRange (P : Platform) (type_ subtype : Option Bytes) :
    Except Error Bytes :=
  match type_, subtype with
  | some t, some s => .ok (t ++ lit "/" ++ s)
  | _, _ =>
      if P.formatsNil then
        .ok (type_.getD (lit "nil") ++ lit "/" ++ subtype.getD (lit "nil"))
      else .error .badArgument

/-- The loop of `parse.accept`. -/
def acceptFrom (dt : Fields P) : List Part → Result P
  | [] => .ok (some (.table [] dt))
  | p :: parts => do
      let params ← valueparams acceptParse p.tokens
      match valueTokens p.tokens with
      | type_ :: slash :: subtype :: _ =>
          if slash ≠ lit "/" then return none
          else
            let k ← mediaRange P (name type_) (name subtype)
            let dt ← setField dt (some k) (paramsOrTrue params)
            acceptFrom dt parts
      | _ => return none

def accept (s : Bytes) : Result P := acceptFrom [] (tsplit (tokens s) (lit ","))

/-- The loop of `accept_list` and of `parse.te`. -/
def valueparamslist (parsers : ParamParsers P) (s : Bytes) : Result P := do
  let dt ← (tsplit (tokens s) (lit ",")).foldlM
    (fun (dt : Fields P) p => do
      let params ← valueparams parsers p.tokens
      setField dt (name p.first) (paramsOrTrue params)) []
  return some (.table [] dt)

def acceptList (s : Bytes) : Result P := valueparamslist acceptParse s

def teParse : ParamParsers P := [("trailers", noValue), ("q", mustInt)]

def te (s : Bytes) : Result P := valueparamslist teParse s

def trencParse : ParamParsers P := [("chunked", noValue)]

def transferEncoding (s : Bytes) : Result P := do
  let (array, params) ← (tsplit (tokens s) (lit ",")).foldlM
    (fun (dt : List (Value P) × Fields P) p => do
      let params ← valueparams trencParse p.tokens
      let k := name p.first
      return (dt.1 ++ (strOf k).toList,
        ← setField dt.2 k (params.map (.table [])))) ([], [])
  return some (.table array [(lit "params", .table [] params)])

def contentType (s : Bytes) : Result P := do
  let t := tokens s
  let params ← valueparams [] t
  if t[1]? ≠ some (lit "/") then return none
  else
    let params ← setField (params.getD []) (some (lit "media_type"))
      (strOf (name (valueTokens t).flatten))
    return some (.table [] params)

/-! ## Properties -/

def properties (parsers : ParamParsers P) (s : Bytes) : Result P := do
  return some (.table [] (← propertylist parsers s))

def ccParse : ParamParsers P :=
  [("no_cache", noValue), ("no_store", noValue), ("max_age", mustInt),
    ("max_stale", optInt), ("min_fresh", mustInt), ("no_transform", noValue),
    ("only_if_cached", noValue), ("public", noValue), ("private", optNameset),
    ("no_cache", optNameset), ("no_store", noValue), ("no_transform", noValue),
    ("must_transform", noValue), ("must_revalidate", noValue),
    ("proxy_revalidate", noValue), ("max_age", mustInt), ("s_maxage", mustInt)]

def cacheControl (s : Bytes) : Result P := properties ccParse s

def expectParse : ParamParsers P := [("100_continue", noValue)]

def expect (s : Bytes) : Result P := properties expectParse s

def pragmaParse : ParamParsers P := [("no_cache", noValue)]

def pragma (s : Bytes) : Result P := properties pragmaParse s

def credentialsParsers : ParamParsers P :=
  [("realm", mustValue), ("username", mustValue), ("uri", mustValue),
    ("qop", mustName), ("nonce", mustValue), ("cnonce", mustValue),
    ("nc", mustHex 8), ("response", mustHex 32), ("opaque", mustValue),
    ("algorithm", mustName)]

/-- `'^([^ ]+) (.*)$'` -/
def credentialsPattern : Pattern where
  items := [.capStart, .plus (noneOf " "), .capStop, .one (chr ' '), .capStart,
    .star anyChar, .capStop, .atEnd]
  anchored := true

/-- `'^([^:]*):(.*)$'` -/
def basicPattern : Pattern where
  items := [.capStart, .star (noneOf ":"), .capStop, .one (chr ':'), .capStart,
    .star anyChar, .capStop, .atEnd]
  anchored := true

/-- `dt.scheme = scheme` -/
def withScheme (dt : Fields P) (scheme : Option Bytes) : Result P := do
  return some (.table [] (← setField dt (some (lit "scheme")) (strOf scheme)))

def credentials (s : Bytes) : Result P :=
  match credentialsPattern.values s with
  | some [scheme, s] =>
      let scheme := name scheme
      if scheme = some (lit "basic") then
        match P.decode s with
        | some w =>
            let userPass := (basicPattern.values w).getD []
            .ok (some (record [("scheme", strOf scheme),
              ("user", strOf userPass[0]?), ("pass", strOf userPass[1]?)]))
        | none => .error .nilIndex
      else if scheme = some (lit "digest") then do
        withScheme (← propertylist credentialsParsers s) scheme
      else .ok (some (record [("scheme", strOf scheme), ("rest", some (.str s))]))
  | _ => .ok none

def challengeParsers : ParamParsers P :=
  [("realm", mustValue), ("domain", mustUrllist), ("nonce", mustValue),
    ("opaque", mustValue), ("stale", mustBool), ("algorithm", mustName),
    ("qop", mustNameset)]

/-- `'^([^ ]+) ?(.*)$'` -/
def challengesPattern : Pattern where
  items := [.capStart, .plus (noneOf " "), .capStop, .opt (chr ' '), .capStart,
    .star anyChar, .capStop, .atEnd]
  anchored := true

def challenges (s : Bytes) : Result P :=
  match challengesPattern.values s with
  | some [scheme, s] => do
      withScheme (← propertylist challengeParsers s) (name scheme)
  | _ => .ok none

/-! ## Lists of products, entity tags and hops -/

def server (s : Bytes) : Result P := do
  let dt ← (tsplit (tokens s) (lit ",")).foldlM
    (fun (dt : Fields P) p =>
      if p.more[0]? = some (lit "/") then
        setField dt (name p.first)
          (some (p.more[1]?.elim (.bool true) .str))
      else .ok dt) []
  return some (.table [] dt)

def upgrade (s : Bytes) : Result P := do
  let dt ← (tsplit (tokens s) (lit ",")).foldlM
    (fun (dt : Fields P) p =>
      setField dt (name p.first) (some (p.more[1]?.elim (.bool true) .str))) []
  return some (.table [] dt)

/-- One entity tag of `etags`. -/
def etagOf (p : Part) : Value P :=
  let isWeak := p.first = lit "W" ∧ p.more[0]? = some (lit "/")
  let etag := if isWeak then p.more[1]?.getD p.first else p.first
  record [("etag", some (.str etag)), ("weak", some (.bool (decide isWeak)))]

def etags (s : Bytes) : Result P :=
  if s = lit "*" then .ok (some (.str (lit "*")))
  else .ok (some (.table ((tsplit (tokens s) (lit ",")).map etagOf) []))

/-- `etag(s)` -/
def etag (s : Bytes) : Option (Value P) :=
  let weakEtag := (Pattern.values ⟨[.one (chr 'W'), .one (chr '/'), .capStart,
    .star anyChar, .capStop, .atEnd], true⟩ s).bind List.head?
  (qstring (weakEtag.getD s)).map fun w =>
    record [("etag", some (.str w)), ("weak", some (.bool weakEtag.isSome))]

def ifRange (s : Bytes) : Option (Value P) :=
  let isEtag := Pattern.matches ⟨[.one (chr 'W'), .one (chr '/')], true⟩ s ||
    Pattern.matches ⟨[.one (chr '"')], true⟩ s
  (if isEtag then etag s else none).or (dateValue s)

/-- The loop of `parse.via`. -/
def viaFrom (dt : List (Value P)) : List Part → Option (Value P)
  | [] => some (.table dt [])
  | p :: parts =>
      let proto := if p.get 1 = some (lit "/") then p.get 0 else none
      let o := if proto.isSome then 2 else 0
      if o + p.tokens.length < 2 then none
      else
        let port := if p.get (o + 2) = some (lit ":") then p.get (o + 3) else none
        let comment := (p.get (o + 2 + if port.isSome then 2 else 0)).filter
          (· ≠ lit ",")
        match p.get o, p.get (o + 1) with
        | some ver, some host =>
            viaFrom (dt ++ [record [("protocol", strOf (proto.bind name)),
              ("version", some (.str (lower ver))),
              ("host", some (.str (lower host))),
              ("comment", strOf comment)]]) parts
        | _, _ => viaFrom dt parts

def via (s : Bytes) : Option (Value P) := viaFrom [] (tsplit (tokens s) (lit ","))

def warning (s : Bytes) : Result P := do
  let dt ← (tsplit (tokens s) (lit ",")).mapM fun p =>
    let hasPort := p.get 2 = some (lit ":")
    let port := if hasPort then p.more[1]? else none
    let message := if hasPort then p.more[2]? else p.more[1]?
    match p.more[0]? with
    | some host =>
        .ok (record [("code", intValue p.first),
          ("host", some (.str (lower host))), ("port", port.bind intValue),
          ("message", strOf message)])
    | none => .error .nilIndex
  return some (.table dt [])

/-! ## Other headers -/

def acceptRanges (s : Bytes) : Result P :=
  if s = lit "none" then .ok (some (.table [] [])) else some <$> nameset s

def contentMd5 (s : Bytes) : Result P :=
  match P.decode s with
  | some w => .ok (some (.str (w.flatMap hexByte)))
  | none => .error .nilIndex

/-- `t.from`, `t.to`, `t.total` and `t.size`, for strings that may be nil. -/
def rangeOf (from_ to_ total : Option Bytes) : Value P :=
  let from_ := from_.bind P.tonumber
  let to_ := to_.bind P.tonumber
  let total := total.bind P.tonumber
  let size := match from_, to_ with
    | some a, some b => some (P.size a b)
    | _, _ => none
  record [("from", from_.map .num), ("to", to_.map .num),
    ("total", total.map .num), ("size", size.map .num)]

/-- `'bytes (%d+)%-(%d+)/(%d+)'` -/
def contentRangePattern : Pattern where
  items := (lit "bytes ").map (fun b => .one (· == b)) ++
    [.capStart, .plus isDigit, .capStop, .one (chr '-'), .capStart,
      .plus isDigit, .capStop, .one (chr '/'), .capStart, .plus isDigit, .capStop]

def contentRange (s : Bytes) : Value P :=
  let w := (contentRangePattern.values s).getD []
  rangeOf w[0]? w[1]? w[2]?

/-- `'bytes=(%d+)%-(%d+)'` -/
def rangePattern : Pattern where
  items := (lit "bytes=").map (fun b => .one (· == b)) ++
    [.capStart, .plus isDigit, .capStop, .one (chr '-'), .capStart,
      .plus isDigit, .capStop]

def range (s : Bytes) : Value P :=
  let w := (rangePattern.values s).getD []
  rangeOf w[0]? w[1]? none

/-- `'^(.-) ?: ?(.*)$'` -/
def hostPattern : Pattern where
  items := [.capStart, .lazy anyChar, .capStop, .opt (chr ' '), .one (chr ':'),
    .opt (chr ' '), .capStart, .star anyChar, .capStop, .atEnd]
  anchored := true

def host (s : Bytes) : Option (Value P) :=
  match hostPattern.values s with
  | some [host, port] =>
      (intValue port).map fun port =>
        record [("host", some (.str (lower host))), ("port", some port)]
  | _ =>
      some (record [("host", some (.str (lower s))),
        ("port", some (.num (P.ofNat 80)))])

def retryAfter (s : Bytes) : Option (Value P) := (intValue s).or (dateValue s)

def vary (s : Bytes) : Result P :=
  if s = lit "*" then .ok (some (.str (lit "*"))) else some <$> nameset s

/-- `'^(%d+) ?; ?url ?= ?'` -/
def refreshPattern : Pattern where
  items := [.capStart, .plus isDigit, .capStop, .opt (chr ' '), .one (chr ';'),
      .opt (chr ' ')] ++ (lit "url").map (fun b => .one (· == b)) ++
    [.opt (chr ' '), .one (chr '='), .opt (chr ' ')]
  anchored := true

/-- The pattern has one capture, so that there is no url. -/
def refresh (s : Bytes) : Option (Value P) :=
  (((refreshPattern.values s).bind List.head?).bind P.tonumber).map fun n =>
    record [("url", none), ("pause", some (.num n))]

/-! ## The headers -/

/-- The headers that have a parser. -/
inductive Header
  | accept | acceptCharset | acceptEncoding | acceptLanguage | acceptRanges
  | acceptDatetime | age | allow | authorization | proxyAuthorization
  | wwwAuthenticate | proxyAuthenticate | cacheControl | connection
  | contentEncoding | contentLanguage | contentLength | contentLocation
  | contentMd5 | contentRange | contentType | date | etag | expect | expires
  | from_ | host | ifMatch | ifModifiedSince | ifNoneMatch | ifRange
  | ifUnmodifiedSince | lastModified | location | maxForwards | pragma | range
  | referer | retryAfter | server | te | trailer | transferEncoding | upgrade
  | userAgent | vary | via | warning | dnt | link | refresh | setCookie | cookie
  | strictTransportSecurity | contentDisposition | xRequestedWith
  | xForwardedFor | xForwardedProto | xPoweredBy
  deriving DecidableEq, Repr

/-- The keys of `parse`. -/
def Header.names : List (String × Header) :=
  [("accept", .accept), ("accept_charset", .acceptCharset),
    ("accept_encoding", .acceptEncoding), ("accept_language", .acceptLanguage),
    ("accept_ranges", .acceptRanges), ("accept_datetime", .acceptDatetime),
    ("age", .age), ("allow", .allow), ("authorization", .authorization),
    ("proxy_authorization", .proxyAuthorization),
    ("www_authenticate", .wwwAuthenticate),
    ("proxy_authenticate", .proxyAuthenticate),
    ("cache_control", .cacheControl), ("connection", .connection),
    ("content_encoding", .contentEncoding),
    ("content_language", .contentLanguage),
    ("content_length", .contentLength), ("content_location", .contentLocation),
    ("content_md5", .contentMd5), ("content_range", .contentRange),
    ("content_type", .contentType), ("date", .date), ("etag", .etag),
    ("expect", .expect), ("expires", .expires), ("from", .from_),
    ("host", .host), ("if_match", .ifMatch),
    ("if_modified_since", .ifModifiedSince), ("if_none_match", .ifNoneMatch),
    ("if_range", .ifRange), ("if_unmodified_since", .ifUnmodifiedSince),
    ("last_modified", .lastModified), ("location", .location),
    ("max_forwards", .maxForwards), ("pragma", .pragma), ("range", .range),
    ("referer", .referer), ("retry_after", .retryAfter), ("server", .server),
    ("te", .te), ("trailer", .trailer),
    ("transfer_encoding", .transferEncoding), ("upgrade", .upgrade),
    ("user_agent", .userAgent), ("vary", .vary), ("via", .via),
    ("warning", .warning), ("dnt", .dnt), ("link", .link),
    ("refresh", .refresh), ("set_cookie", .setCookie), ("cookie", .cookie),
    ("strict_transport_security", .strictTransportSecurity),
    ("content_disposition", .contentDisposition),
    ("x_requested_with", .xRequestedWith), ("x_forwarded_for", .xForwardedFor),
    ("x_forwarded_proto", .xForwardedProto), ("x_powered_by", .xPoweredBy)]

def Header.ofName (k : Bytes) : Option Header :=
  (Header.names.find? fun p => lit p.1 == k).map Prod.snd

/-- `parse[k]` -/
def Header.parse (k : Header) (s : Bytes) : Result P :=
  match k with
  | accept => Headers.accept s
  | acceptCharset | acceptEncoding | acceptLanguage => acceptList s
  | acceptRanges => Headers.acceptRanges s
  | acceptDatetime | date | expires | ifModifiedSince | ifUnmodifiedSince
  | lastModified => .ok (dateValue s)
  | age | contentLength | maxForwards => .ok (intValue s)
  | allow | connection | contentLanguage | trailer | xForwardedFor =>
      some <$> nameset s
  | contentEncoding => .ok (some (namelist s))
  | authorization | proxyAuthorization => credentials s
  | wwwAuthenticate | proxyAuthenticate => challenges s
  | cacheControl => Headers.cacheControl s
  | contentLocation | from_ | location | referer | link | setCookie
  | strictTransportSecurity | contentDisposition | xPoweredBy =>
      .ok (some (.str s))
  | contentMd5 => Headers.contentMd5 s
  | contentRange => .ok (some (Headers.contentRange s))
  | contentType => Headers.contentType s
  | etag => .ok (Headers.etag s)
  | expect => Headers.expect s
  | host => .ok (Headers.host s)
  | ifMatch | ifNoneMatch => etags s
  | ifRange => .ok (Headers.ifRange s)
  | pragma => Headers.pragma s
  | range => .ok (some (Headers.range s))
  | retryAfter => .ok (Headers.retryAfter s)
  | server => Headers.server s
  | te => Headers.te s
  | transferEncoding => Headers.transferEncoding s
  | upgrade => Headers.upgrade s
  | userAgent => .ok (some (.str (lower s)))
  | vary => Headers.vary s
  | via => .ok (Headers.via s)
  | warning => Headers.warning s
  | dnt => .ok (some (.bool (decide (s = lit "1"))))
  | refresh => .ok (Headers.refresh s)
  | cookie => .ok none
  | xRequestedWith | xForwardedProto => .ok (strOf (name s))

/-! ## Parsing all headers -/

/-- `parse_value(k, v)`; an unknown header is returned as it is. -/
def parseValue (k v : Bytes) : Result P :=
  match Header.ofName k with
  | some header => header.parse v
  | none => .ok (some (.str v))

/-- `string.format('invalid value "%s"', v)` -/
def invalidValue (v : Bytes) : Bytes := lit "invalid value \"" ++ v ++ lit "\""

/-- A table of header values, in the order in which `pairs` visits it. -/
structure HeaderTable where
  entries : List (Bytes × Bytes)
  nodup : (entries.map Prod.fst).Nodup

/-- `dt` and `errt` of `parse_values`. -/
structure Parsed (P : Platform) where
  dt : Fields P := []
  errt : List (Bytes × Bytes) := []

/-- The body of the loop of `parse_values`; no parser returns an error text. -/
def parseEntry (d : Parsed P) (entry : Bytes × Bytes) :
    Except Error (Parsed P) := do
  let pv ← parseValue entry.1 entry.2
  match pv with
  | some pv => return { d with dt := (entry.1, pv) :: d.dt }
  | none => return { d with errt := (entry.1, invalidValue entry.2) :: d.errt }

/-- `parse_values(t)` -/
def parseValues (t : HeaderTable) : Except Error (Parsed P) :=
  t.entries.foldlM parseEntry {}

end LuaAttic.Http.Headers
