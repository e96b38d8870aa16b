import LuaAttic.Http.WriteHeaders
import LuaAttic.Lua.Glue

/-!
# Requests and responses (`http.lua`, `http_client.lua`)

A message begins with a line and headers.  The client reads responses up to the first one whose
status is not 100, into one table of headers, and then the body that the headers announce.

What compressed bodies contain is a parameter.
-/

namespace LuaAttic.Http

open LuaAttic.Lua LuaAttic.Support

/-! ## First lines -/

/-- `'^([^ ]+) ([^ ]+) HTTP/(%d+%.%d+)$'` -/
def requestPattern : Pattern where
  items := [.capStart, .plus (noneOf " "), .capStop, .one (chr ' '),
    .capStart, .plus (noneOf " "), .capStop, .one (chr ' '),
    .one (chr 'H'), .one (chr 'T'), .one (chr 'T'), .one (chr 'P'), .one (chr '/'),
    .capStart, .plus isDigit, .one (chr '.'), .plus isDigit, .capStop, .atEnd]
  anchored := true

/-- `'^HTTP/(%d+%.%d+) (%d%d%d) ?(.*)$'` -/
def responsePattern : Pattern where
  items := [.one (chr 'H'), .one (chr 'T'), .one (chr 'T'), .one (chr 'P'), .one (chr '/'),
    .capStart, .plus isDigit, .one (chr '.'), .plus isDigit, .capStop, .one (chr ' '),
    .capStart, .one isDigit, .one isDigit, .one isDigit, .capStop, .opt (chr ' '),
    .capStart, .star anyChar, .capStop, .atEnd]
  anchored := true

/-- The method, the uri and the version of a request line; nil for other lines. -/
def requestLine (s : Bytes) : Option (Bytes × Bytes × Bytes) :=
  match requestPattern.values s with
  | some [method, uri, version] => some (method, uri, version)
  | _ => none

/-- The number that decimal digits stand for. -/
def decimal (digits : Bytes) : ℕ := digits.foldl (fun n b => 10 * n + (b.toNat - 0x30)) 0

/-- The status, the message and the version of a response line; nil for other lines. -/
def responseLine (s : Bytes) : Option (ℕ × Bytes × Bytes) :=
  match responsePattern.values s with
  | some [version, status, message] => some (decimal status, message, version)
  | _ => none

/-- `tostring(n)` -/
def formatDecimal (n : ℕ) : Bytes :=
  if n < 10 then [UInt8.ofNat (0x30 + n)]
  else formatDecimal (n / 10) ++ [UInt8.ofNat (0x30 + n % 10)]

/-- `write_request_line(write, method, uri, version)` -/
def writeRequestLine (method uri version : Bytes) : Bytes :=
  upper method ++ lit " " ++ uri ++ lit " HTTP/" ++ version ++ lit "\r\n"

/-- `write_response_line(write, status, message, version)`; without a message it indexes a global
that nothing sets. -/
def writeResponseLine (status : ℕ) (message : Option Bytes) (version : Bytes) : Option Bytes :=
  message.map fun message =>
    lit "HTTP/" ++ version ++ lit " " ++ formatDecimal status ++ lit " " ++ message ++ lit "\r\n"

/-! ## Bodies -/

/-- A connection that can also be read up to its end. -/
structure ClosingConnection extends Connection where
  readall : Bytes → List Bytes
  flatten_readall : ∀ s, (readall s).flatten = s

inductive PageError
  | http (e : Error)
  /-- `nil < 100` -/
  | compareNil
  | invalidContentLength
  | closeExpected
  | unsupportedEncoding (encoding : Bytes)

/-- The texts of the errors that are raised for what the headers say. -/
def PageError.message : PageError → Option Bytes
  | .http e => e.message
  | .compareNil => none
  | .invalidContentLength => some (lit "invalid Content-Length header")
  | .closeExpected => some (lit "\"Connection: close\" expected in absence of " ++
      lit "\"Transfer-Encoding: chunked\" or Content-Length")
  | .unsupportedEncoding encoding => some (lit "unsupported encoding " ++ encoding)

inductive Coding
  | gzip
  | deflate

/-- What is read of a body: its pieces, and then an error, or the headers with the trailers and
what is left of the connection. -/
abbrev Reading := List Bytes × Except PageError (Headers × Bytes)

/-- `tonumber` of a header that is not digits, and what zlib makes of a body. -/
structure Platform where
  tonumber : Bytes → Option ℤ
  inflate : Coding → Reading → Reading

/-- `' ?, ?'` -/
def commaPattern : Pattern := ⟨[.opt (chr ' '), .one (chr ','), .opt (chr ' ')], false⟩

/-- The codings that `pipe_reader(read, encodings)` takes back, in their order. -/
def codings (encodings : Option Bytes) : Except PageError (List Coding) :=
  match encodings with
  | none => .ok []
  | some encodings =>
      (gsplit commaPattern encodings).reverse.foldlM (fun l encoding =>
        if encoding = lit "identity" ∨ encoding = lit "chunked" then .ok l
        else if encoding = lit "gzip" then .ok (l ++ [.gzip])
        else if encoding = lit "deflate" then .ok (l ++ [.deflate])
        else .error (.unsupportedEncoding encoding)) []

/-- `tonumber(s)` -/
def Platform.number (P : Platform) (s : Bytes) : Option ℤ :=
  if s ≠ [] ∧ s.all isDigit then some (decimal s) else P.tonumber s

/-- How a body ends. -/
inductive Extent
  | chunked
  | sized (length : ℕ)
  | closed

/-- The branches of `body_reader`. -/
def extent (P : Platform) (headers : Headers) : Except PageError Extent :=
  if headers (lit "transfer_encoding") ≠ none ∧
      headers (lit "transfer_encoding") ≠ some (lit "identity") then .ok .chunked
  else
    match headers (lit "content_length") with
    | some s =>
        match P.number s with
        | some length =>
            if 0 ≤ length then .ok (.sized length.toNat) else .error .invalidContentLength
        | none => .error .invalidContentLength
    | none =>
        if headers (lit "connection") = some (lit "close") then .ok .closed
        else .error .closeExpected

/-- What is read up to the end of a body. -/
def readExtent (C : ClosingConnection) (headers : Headers) (conn : Bytes) : Extent → Reading
  | .chunked =>
      let r := chunkedReader C.toConnection headers conn
      (r.1, r.2.mapError .http)
  | .sized length =>
      match C.readsize length conn with
      | (parts, some conn) => (parts, .ok (headers, conn))
      | (parts, none) => (parts, .error (.http .eof))
  | .closed => (C.readall conn, .ok (headers, []))

/-- Both calls of `pipe_reader`. -/
def pipeReaders (P : Platform) (headers : Headers) (r : Reading) : Except PageError Reading := do
  let transfer ← codings (headers (lit "transfer_encoding"))
  let content ← codings (headers (lit "content_encoding"))
  return (transfer ++ content).foldl (fun r coding => P.inflate coding r) r

/-- `body_reader(readline, readsize, readall, headers)` -/
def bodyReader (C : ClosingConnection) (P : Platform) (headers : Headers) (conn : Bytes) :
    Except PageError Reading := do
  let extent ← extent P headers
  pipeReaders P headers (readExtent C headers conn extent)

/-! ## Pages -/

section Heads

variable (C : Connection)

/-- What is left of a connection is no longer after headers. -/
theorem headersFrom_le {headers headers' : Headers} {s conn conn' : Bytes}
    (h : headersFrom C headers s conn = .ok (headers', conn')) : conn'.length ≤ conn.length := by
  induction hn : conn.length using Nat.strong_induction_on generalizing headers s conn with
  | _ n ih =>
      subst hn
      rw [headersFrom.eq_def] at h
      split at h
      · cases h
        exact le_rfl
      · split at h
        · split at h
          · next hline =>
              split at h
              · next hvalue =>
                  have hlt := (readValue_le C hvalue).trans_lt (C.readline_lt hline)
                  exact (ih _ hlt h rfl).trans hlt.le
              · cases h
          · cases h
        · cases h

theorem readHeaders_le {headers headers' : Headers} {conn conn' : Bytes}
    (h : readHeaders C headers conn = .ok (headers', conn')) : conn'.length ≤ conn.length := by
  rw [readHeaders] at h
  split at h
  · next hline => exact (headersFrom_le C h).trans (C.readline_lt hline).le
  · cases h

/-- The response line and the headers after the responses that are passed over. -/
def readHead (headers : Headers) (conn : Bytes) :
    Except Error (Option (ℕ × Bytes × Bytes) × Headers × Bytes) :=
  match _hline : C.readline conn with
  | none => .error .eof
  | some (s, conn₁) =>
      match _hheaders : readHeaders C headers conn₁ with
      | .error e => .error e
      | .ok (headers, conn₂) =>
          if (responseLine s).map Prod.fst = some 100 then readHead headers conn₂
          else .ok (responseLine s, headers, conn₂)
termination_by conn.length
decreasing_by exact (readHeaders_le C _hheaders).trans_lt (C.readline_lt _hline)

end Heads

/-- The headers that are passed to the thread that reads, and then the body. -/
structure Page where
  headers : Headers
  reading : Except PageError Reading

/-- The thread of `getpage` that reads. -/
def readPage (C : ClosingConnection) (P : Platform) (conn : Bytes) : Except PageError Page := do
  let (line, headers, conn) ← (readHead C.toConnection (fun _ => none) conn).mapError .http
  if line = none then throw .compareNil
  return ⟨headers, bodyReader C P headers conn⟩

/-! ## Matching first lines -/

section Items

variable {c : CharClass} {items : List Item} {caps : List Capture} {w t : Bytes}
  {r : Bytes × List Capture}

/-- The first capture that is open ends here. -/
theorem closeLast_opened (vs : List Bytes) (w t : Bytes) :
    closeLast t (vs.map Capture.closed ++ [.opened (w ++ t)]) =
      (vs ++ [w]).map Capture.closed := by
  induction vs with
  | nil => simp [closeLast]
  | cons v vs ih =>
      rw [List.map_cons, List.cons_append, closeLast, ih]
      rfl

theorem matchItems_capStop (vs : List Bytes) (w t : Bytes) :
    matchItems (.capStop :: items) (vs.map Capture.closed ++ [.opened (w ++ t)]) t =
      matchItems items ((vs ++ [w]).map Capture.closed) t := by
  rw [matchItems, closeLast_opened]

/-- A run that what follows cannot go on with. -/
theorem matchItems_plus (hw : w ≠ []) (hall : ∀ b ∈ w, c b = true) (ht : t.dropWhile c = t)
    (h : matchItems items caps t = some r) :
    matchItems (.plus c :: items) caps (w ++ t) = some r := by
  obtain ⟨b, w, rfl⟩ := List.exists_cons_of_ne_nil hw
  obtain ⟨hb, hall⟩ := List.forall_mem_cons.mp hall
  have hdrop : (w ++ t).dropWhile c = t := by
    rw [List.dropWhile_append_of_pos hall, ht]
  rw [List.cons_append, matchItems, if_pos hb, maxExpand_of_isSome, hdrop, h]
  rw [hdrop, h]
  rfl

theorem matchItems_one {b : UInt8} (hb : c b = true) (s : Bytes) :
    matchItems (.one c :: items) caps (b :: s) = matchItems items caps s := if_pos hb

/-- All that is left is taken. -/
theorem matchItems_rest (vs : List Bytes) (w : Bytes) :
    matchItems [.capStart, .star anyChar, .capStop, .atEnd] (vs.map Capture.closed) w =
      some ([], (vs ++ [w]).map Capture.closed) := by
  have hend : matchItems [.capStop, .atEnd] (vs.map Capture.closed ++ [.opened w]) [] =
      some ([], (vs ++ [w]).map Capture.closed) := by
    have hstop : matchItems [.capStop, .atEnd] (vs.map Capture.closed ++ [.opened (w ++ [])]) [] =
        matchItems [.atEnd] ((vs ++ [w]).map Capture.closed) [] := matchItems_capStop vs w []
    rw [List.append_nil] at hstop
    rw [hstop]
    rfl
  rw [matchItems, matchItems, maxExpand_of_isSome]
  · rw [dropWhile_anyChar, hend]
  · rw [dropWhile_anyChar, hend]
    rfl

end Items

/-- Digits, a dot and digits. -/
structure Version (v : Bytes) : Prop where
  exists_digits : ∃ major minor, v = major ++ 0x2E :: minor ∧ major ≠ [] ∧ minor ≠ [] ∧
    (∀ b ∈ major, isDigit b = true) ∧ ∀ b ∈ minor, isDigit b = true

section Captures

variable {t : Bytes} {items : List Item} {vs : List Bytes} {r : Bytes × List Capture}

/-- A version is captured where no digit follows it. -/
theorem matchItems_version (vs : List Bytes) {v : Bytes} (hv : Version v)
    (ht : t.dropWhile isDigit = t)
    (h : matchItems items ((vs ++ [v]).map Capture.closed) t = some r) :
    matchItems (.capStart :: .plus isDigit :: .one (chr '.') :: .plus isDigit :: .capStop :: items)
        (vs.map Capture.closed) (v ++ t) = some r := by
  obtain ⟨major, minor, rfl, hmajor, hminor, hmajor', hminor'⟩ := hv.exists_digits
  rw [← matchItems_capStop] at h
  have hshape : major ++ 0x2E :: minor ++ t = major ++ (0x2E :: (minor ++ t)) := by simp
  rw [hshape] at h ⊢
  have hdot : matchItems (.one (chr '.') :: .plus isDigit :: .capStop :: items)
      (vs.map Capture.closed ++ [.opened (major ++ (0x2E :: (minor ++ t)))])
        (0x2E :: (minor ++ t)) = some r :=
    (matchItems_one (by decide) _).trans (matchItems_plus hminor hminor' ht h)
  rw [matchItems]
  exact matchItems_plus hmajor hmajor' rfl hdot

/-- A word is captured up to the space after it. -/
theorem matchItems_untilSpace (vs : List Bytes) {w : Bytes} (hw : w ≠ []) (hspace : 0x20 ∉ w)
    (h : matchItems items ((vs ++ [w]).map Capture.closed) (0x20 :: t) = some r) :
    matchItems (.capStart :: .plus (noneOf " ") :: .capStop :: items) (vs.map Capture.closed)
        (w ++ 0x20 :: t) = some r := by
  have hall : ∀ b ∈ w, noneOf " " b = true := by
    intro b hb
    have hne : b ≠ 0x20 := fun heq => hspace (heq ▸ hb)
    simpa [noneOf, lit, Char.toUInt8] using hne
  rw [← matchItems_capStop] at h
  rw [matchItems]
  exact matchItems_plus hw hall rfl h

end Captures

/-- The values of a pattern that matches a whole string. -/
theorem values_of_matchItems {p : Pattern} {s : Bytes} {vs : List Bytes} (hvs : vs ≠ [])
    (h : matchItems p.items [] s = some ([], vs.map Capture.closed)) :
    p.values s = some vs := by
  have hvalues : (vs.map Capture.closed).map Capture.value = vs := by
    rw [List.map_map]
    exact List.map_id vs
  rw [← List.append_nil s] at h
  have hhere := matchHere_append h
  rw [List.append_nil, if_neg (mt List.map_eq_nil_iff.mp hvs), hvalues] at hhere
  rw [Pattern.values, Pattern.find.eq_def, hhere]
  rfl

/-- A request line is read as it was written. -/
theorem requestLine_of_words {method uri v : Bytes} (hmethod : method ≠ [] ∧ 0x20 ∉ method)
    (huri : uri ≠ [] ∧ 0x20 ∉ uri) (hv : Version v) :
    requestLine (method ++ 0x20 :: (uri ++ 0x20 :: (lit "HTTP/" ++ v))) =
      some (method, uri, v) := by
  have hversion : matchItems [.capStart, .plus isDigit, .one (chr '.'), .plus isDigit, .capStop,
      .atEnd] ([method, uri].map Capture.closed) (v ++ []) =
        some ([], [method, uri, v].map Capture.closed) :=
    matchItems_version [method, uri] hv rfl rfl
  rw [List.append_nil] at hversion
  have hrest : matchItems [.one (chr ' '), .capStart, .plus (noneOf " "), .capStop,
      .one (chr ' '), .one (chr 'H'), .one (chr 'T'), .one (chr 'T'), .one (chr 'P'),
      .one (chr '/'), .capStart, .plus isDigit, .one (chr '.'), .plus isDigit, .capStop, .atEnd]
      ([method].map Capture.closed) (0x20 :: (uri ++ 0x20 :: (lit "HTTP/" ++ v))) =
        some ([], [method, uri, v].map Capture.closed) :=
    matchItems_untilSpace [method] huri.1 huri.2 hversion
  have hmatch : matchItems requestPattern.items ([].map Capture.closed)
      (method ++ 0x20 :: (uri ++ 0x20 :: (lit "HTTP/" ++ v))) =
        some ([], [method, uri, v].map Capture.closed) :=
    matchItems_untilSpace [] hmethod.1 hmethod.2 hrest
  rw [requestLine, values_of_matchItems (List.cons_ne_nil _ _) hmatch]

/-! ## Statuses -/

/-- The digit of a number below ten. -/
def digit (n : ℕ) : UInt8 := UInt8.ofNat (0x30 + n)

theorem isDigit_digit : ∀ n < 10, isDigit (digit n) = true ∧ (digit n).toNat - 0x30 = n := by
  decide

theorem formatDecimal_status {n : ℕ} (hn : 100 ≤ n) (hn' : n < 1000) :
    formatDecimal n = [digit (n / 100), digit (n / 10 % 10), digit (n % 10)] := by
  rw [formatDecimal, if_neg (by omega), formatDecimal, if_neg (by omega), formatDecimal,
    if_pos (by omega), Nat.div_div_eq_div_mul]
  rfl

theorem decimal_status {n : ℕ} (hn' : n < 1000) :
    decimal [digit (n / 100), digit (n / 10 % 10), digit (n % 10)] = n := by
  simp only [decimal, List.foldl_cons, List.foldl_nil]
  rw [(isDigit_digit (n / 100) (by omega)).2, (isDigit_digit (n / 10 % 10) (by omega)).2,
    (isDigit_digit (n % 10) (by omega)).2]
  omega

/-- A response line is read as it was written. -/
theorem responseLine_of_parts {v message : Bytes} {n : ℕ} (hv : Version v) (hn : 100 ≤ n)
    (hn' : n < 1000) :
    responseLine (lit "HTTP/" ++ (v ++ 0x20 :: (formatDecimal n ++ 0x20 :: message))) =
      some (n, message, v) := by
  have hrest := matchItems_rest [v, formatDecimal n] message
  rw [formatDecimal_status hn hn'] at hrest ⊢
  have hspace : matchItems [.opt (chr ' '), .capStart, .star anyChar, .capStop, .atEnd]
      ([v, [digit (n / 100), digit (n / 10 % 10), digit (n % 10)]].map Capture.closed)
      (0x20 :: message) = some ([], [v, [digit (n / 100), digit (n / 10 % 10), digit (n % 10)],
        message].map Capture.closed) := by
    rw [matchItems, if_pos (by decide), hrest, Option.some_or]
    rfl
  have hstatus : matchItems [.one (chr ' '), .capStart, .one isDigit, .one isDigit, .one isDigit,
      .capStop, .opt (chr ' '), .capStart, .star anyChar, .capStop, .atEnd]
      ([v].map Capture.closed) (0x20 :: ([digit (n / 100), digit (n / 10 % 10), digit (n % 10)] ++
        0x20 :: message)) = some ([], [v, [digit (n / 100), digit (n / 10 % 10), digit (n % 10)],
        message].map Capture.closed) := by
    rw [matchItems_one (by decide), matchItems, List.cons_append, List.cons_append,
      List.cons_append, List.nil_append,
      matchItems_one (isDigit_digit _ (by omega)).1, matchItems_one (isDigit_digit _ (by omega)).1,
      matchItems_one (isDigit_digit _ (by omega)).1]
    exact (matchItems_capStop [v] [digit (n / 100), digit (n / 10 % 10), digit (n % 10)]
      (0x20 :: message)).trans hspace
  have hmatch := matchItems_version [] hv rfl hstatus
  have hvalues : responsePattern.values (lit "HTTP/" ++ (v ++ 0x20 :: ([digit (n / 100),
      digit (n / 10 % 10), digit (n % 10)] ++ 0x20 :: message))) =
        some [v, [digit (n / 100), digit (n / 10 % 10), digit (n % 10)], message] :=
    values_of_matchItems (List.cons_ne_nil _ _) hmatch
  rw [responseLine, hvalues]
  exact congrArg (fun status => some (status, message, v)) (decimal_status hn')

/-! ## Heads -/

/-- What the headers of a table add to those that were read before. -/
def merge (H : Headers) (T : Table Bytes Bytes) : Headers := fun k =>
  match (T.get k).map headerValue with
  | none => H k
  | some v => some ((H k).elim v (· ++ lit "," ++ v))

theorem foldl_addHeader_eq {l : List (Bytes × Bytes)} {H : Headers}
    (hnodup : (l.map fun e => headerName e.1).Nodup) (k : Bytes) :
    l.foldl (fun H e => addHeader H (headerName e.1) e.2) H k =
      match (l.find? fun e => headerName e.1 = k).map Prod.snd with
      | none => H k
      | some v => some ((H k).elim v (· ++ lit "," ++ v)) := by
  induction l generalizing H with
  | nil => rfl
  | cons e l ih =>
      rw [List.map_cons, List.nodup_cons] at hnodup
      rw [List.foldl_cons, ih hnodup.2]
      by_cases hk : headerName e.1 = k
      · have hfind : l.find? (fun e => headerName e.1 = k) = none := by
          rw [List.find?_eq_none]
          intro e' he' heq
          rw [decide_eq_true_eq] at heq
          exact hnodup.1 (List.mem_map.mpr ⟨e', he', heq.trans hk.symm⟩)
        rw [hfind, List.find?_cons_of_pos (by simpa using hk), ← hk]
        exact Function.update_self _ _ _
      · have hadd : addHeader H (headerName e.1) e.2 k = H k :=
          Function.update_of_ne (Ne.symm hk) _ _
        rw [hadd, List.find?_cons_of_neg (by simpa using hk)]

/-- The headers of a table are read after others. -/
theorem readHeaders_entries (C : Connection) {T : Table Bytes Bytes} (h : HeaderTable T)
    (H : Headers) (rest : Bytes) :
    readHeaders C H (encode (entries T) rest) = .ok (merge H T, rest) := by
  rw [readHeaders_encode H h.written]
  refine congrArg (fun H => Except.ok (H, rest)) (funext fun k => ?_)
  have hfind := foldl_entries h k
  rw [foldl_addHeader (nodup_entries h) (fun _ _ => rfl), Option.or_none] at hfind
  rw [foldl_addHeader_eq (nodup_entries h), hfind]
  rfl

/-- What is written before a body. -/
structure Head where
  status : ℕ
  message : Bytes
  version : Bytes
  headers : Table Bytes Bytes
  order : Order Bytes

/-- A response that can be written: three digits, and no line breaks. -/
structure Head.Valid (h : Head) : Prop where
  status : 100 ≤ h.status ∧ h.status < 1000
  message : 0x0D ∉ h.message ∧ 0x0A ∉ h.message
  version : Version h.version
  headers : HeaderTable h.headers

/-- The response line and the headers; none where writing them raises. -/
def Head.write (h : Head) : Option Bytes :=
  match writeResponseLine h.status (some h.message) h.version, writeHeaders h.order h.headers with
  | some line, .ok strings => some (line ++ strings.flatten)
  | _, _ => none

theorem isDigit_ne (b : UInt8) : isDigit b = true → b ≠ 0x0D ∧ b ≠ 0x0A ∧ b ≠ 0x20 := by
  revert b
  exact forall_byte (by decide)

theorem Version.notMem {v : Bytes} (hv : Version v) : 0x0D ∉ v ∧ 0x0A ∉ v := by
  obtain ⟨major, minor, rfl, -, -, hmajor, hminor⟩ := hv.exists_digits
  refine ⟨fun h => ?_, fun h => ?_⟩ <;> rcases List.mem_append.mp h with h | h
  · exact (isDigit_ne _ (hmajor _ h)).1 rfl
  · exact (isDigit_ne _ (hminor _ ((List.mem_cons.mp h).resolve_left (by decide)))).1 rfl
  · exact (isDigit_ne _ (hmajor _ h)).2.1 rfl
  · exact (isDigit_ne _ (hminor _ ((List.mem_cons.mp h).resolve_left (by decide)))).2.1 rfl

/-- The strings of the headers are the lines of the entries. -/
theorem writeHeaders_append {T : Table Bytes Bytes} (h : HeaderTable T) (order : Order Bytes) :
    ∃ strings, writeHeaders order T = .ok strings ∧
      ∀ rest, strings.flatten ++ rest = encode (entries T) rest := by
  have hcrlf : lit "\r\n" = [0x0D, 0x0A] := by decide
  refine ⟨_, writeHeaders_eq h order, fun rest => ?_⟩
  rw [encode, hcrlf, List.flatten_append, List.append_assoc]
  rfl

section Read

variable (C : Connection)

theorem upperChar_ne (b : UInt8) : upperChar b = 0x0D ∨ upperChar b = 0x0A ∨ upperChar b = 0x20 →
    b = upperChar b := by
  revert b
  exact forall_byte (by decide)

/-- A request line and headers are read as they were written, with the method in upper case. -/
theorem readRequest_writeRequest {method uri version : Bytes} {T : Table Bytes Bytes}
    (hmethod : method ≠ [] ∧ 0x20 ∉ method ∧ 0x0D ∉ method ∧ 0x0A ∉ method)
    (huri : uri ≠ [] ∧ 0x20 ∉ uri ∧ 0x0D ∉ uri ∧ 0x0A ∉ uri) (hversion : Version version)
    (hT : HeaderTable T) (order : Order Bytes) (rest : Bytes) :
    ∃ strings line conn, writeHeaders order T = .ok strings ∧
      C.readline (writeRequestLine method uri version ++ (strings.flatten ++ rest)) =
        some (line, conn) ∧
      requestLine line = some (upper method, uri, version) ∧
      readHeaders C (fun _ => none) conn = .ok (fun k => (T.get k).map headerValue, rest) := by
  obtain ⟨strings, hstrings, hencode⟩ := writeHeaders_append hT order
  have hspace : lit " " = [0x20] := by decide
  have hcrlf : lit "\r\n" = [0x0D, 0x0A] := by decide
  have hhttp : lit " HTTP/" = 0x20 :: lit "HTTP/" := by decide
  have hupper : ∀ d, (d = 0x0D ∨ d = 0x0A ∨ d = 0x20) → d ∈ upper method → d ∈ method := by
    intro d hd hmem
    obtain ⟨b, hb, rfl⟩ := List.mem_map.mp hmem
    rwa [← upperChar_ne b hd]
  have hnot : ∀ d, (d = 0x0D ∨ d = 0x0A) → d ∉ method → d ∉ uri → d ∉ version →
      d ∉ upper method ++ 0x20 :: (uri ++ 0x20 :: (lit "HTTP/" ++ version)) := by
    intro d hd hmethod huri hversion hmem
    simp only [List.mem_append, List.mem_cons] at hmem
    rcases hmem with hmem | rfl | hmem | rfl | hmem | hmem
    · exact hmethod (hupper d (hd.imp_right Or.inl) hmem)
    · rcases hd with hd | hd <;> exact absurd hd (by decide)
    · exact huri hmem
    · rcases hd with hd | hd <;> exact absurd hd (by decide)
    · rcases hd with rfl | rfl <;> exact absurd hmem (by decide)
    · exact hversion hmem
  refine ⟨strings, upper method ++ 0x20 :: (uri ++ 0x20 :: (lit "HTTP/" ++ version)),
    encode (entries T) rest, hstrings, ?_, ?_, ?_⟩
  · rw [← C.readline_line _ (encode (entries T) rest)
      (hnot 0x0D (Or.inl rfl) hmethod.2.2.1 huri.2.2.1 hversion.notMem.1)
      (hnot 0x0A (Or.inr rfl) hmethod.2.2.2 huri.2.2.2 hversion.notMem.2), writeRequestLine,
      ← hencode, hspace, hcrlf, hhttp]
    simp only [List.append_assoc, List.cons_append, List.nil_append]
  · refine requestLine_of_words ⟨?_, ?_⟩ ⟨huri.1, huri.2.1⟩ hversion
    · exact mt List.map_eq_nil_iff.mp hmethod.1
    · exact fun hmem => hmethod.2.1 (hupper 0x20 (Or.inr (Or.inr rfl)) hmem)
  · rw [readHeaders_entries C hT]
    refine congrArg (fun H => Except.ok (H, rest)) (funext fun k => ?_)
    rw [merge]
    cases (T.get k).map headerValue <;> rfl

/-- A written head is read, and only the head. -/
theorem Head.Valid.exists_write {h : Head} (hh : h.Valid) :
    ∃ bytes, h.write = some bytes ∧ ∀ H rest, ∃ line conn,
      C.readline (bytes ++ rest) = some (line, conn) ∧
        responseLine line = some (h.status, h.message, h.version) ∧
        readHeaders C H conn = .ok (merge H h.headers, rest) := by
  obtain ⟨strings, hstrings, hencode⟩ := writeHeaders_append hh.headers h.order
  have hline : writeResponseLine h.status (some h.message) h.version =
      some (lit "HTTP/" ++ h.version ++ lit " " ++ formatDecimal h.status ++ lit " " ++ h.message ++
        lit "\r\n") := rfl
  have hspace : lit " " = [0x20] := by decide
  have hcrlf : lit "\r\n" = [0x0D, 0x0A] := by decide
  have hwrite : h.write = some (lit "HTTP/" ++ h.version ++ lit " " ++ formatDecimal h.status ++
      lit " " ++ h.message ++ lit "\r\n" ++ strings.flatten) := by
    rw [Head.write, hline, hstrings]
  refine ⟨_, hwrite, fun H rest => ⟨lit "HTTP/" ++ (h.version ++ 0x20 :: (formatDecimal h.status ++
    0x20 :: h.message)), encode (entries h.headers) rest, ?_,
    responseLine_of_parts hh.version hh.status.1 hh.status.2,
    readHeaders_entries C hh.headers H rest⟩⟩
  have hdigits : ∀ b ∈ formatDecimal h.status, isDigit b = true := by
    intro b hb
    rw [formatDecimal_status hh.status.1 hh.status.2] at hb
    have hlt := hh.status.2
    simp only [List.mem_cons, List.not_mem_nil, or_false] at hb
    rcases hb with rfl | rfl | rfl <;> exact (isDigit_digit _ (by omega)).1
  have hnot : ∀ d, (d = 0x0D ∨ d = 0x0A) → d ∉ lit "HTTP/" ++ (h.version ++ 0x20 ::
      (formatDecimal h.status ++ 0x20 :: h.message)) := by
    intro d hd hmem
    simp only [List.mem_append, List.mem_cons] at hmem
    rcases hmem with hmem | hmem | rfl | hmem | rfl | hmem
    · rcases hd with rfl | rfl <;> exact absurd hmem (by decide)
    · rcases hd with rfl | rfl
      · exact hh.version.notMem.1 hmem
      · exact hh.version.notMem.2 hmem
    · rcases hd with hd | hd <;> exact absurd hd (by decide)
    · rcases hd with rfl | rfl
      · exact (isDigit_ne _ (hdigits _ hmem)).1 rfl
      · exact (isDigit_ne _ (hdigits _ hmem)).2.1 rfl
    · rcases hd with hd | hd <;> exact absurd hd (by decide)
    · rcases hd with rfl | rfl
      · exact hh.message.1 hmem
      · exact hh.message.2 hmem
  have hread := C.readline_line _ (encode (entries h.headers) rest) (hnot 0x0D (Or.inl rfl))
    (hnot 0x0A (Or.inr rfl))
  rw [← hread, ← hencode, hspace, hcrlf]
  simp only [List.append_assoc, List.cons_append, List.nil_append]

/-- The head of a page is the first one whose status is not 100, with the headers of all. -/
theorem readHead_writes {interim : List Head} {last : Head}
    (hinterim : ∀ h ∈ interim, h.Valid ∧ h.status = 100) (hlast : last.Valid)
    (hstatus : last.status ≠ 100) :
    ∃ bytes, (interim ++ [last]).mapM Head.write = some bytes ∧ ∀ H rest,
      readHead C H (bytes.flatten ++ rest) =
        .ok (some (last.status, last.message, last.version),
          (interim ++ [last]).foldl (fun H h => merge H h.headers) H, rest) := by
  induction interim with
  | nil =>
      obtain ⟨bytes, hbytes, hread⟩ := hlast.exists_write C
      refine ⟨[bytes], ?_, fun H rest => ?_⟩
      · rw [List.nil_append, List.mapM_cons, hbytes]
        rfl
      · obtain ⟨line, conn, hline, hresponse, hheaders⟩ := hread H rest
        rw [List.flatten_singleton, readHead.eq_def]
        split
        · next h => cases hline.symm.trans h
        · next h =>
            cases hline.symm.trans h
            split
            · next h => cases hheaders.symm.trans h
            · next h =>
                cases hheaders.symm.trans h
                rw [hresponse, Option.map_some, if_neg fun h => hstatus (Option.some.inj h)]
                rfl
  | cons h interim ih =>
      obtain ⟨⟨hvalid, hcontinue⟩, hinterim⟩ := List.forall_mem_cons.mp hinterim
      obtain ⟨bytes, hbytes, hread⟩ := hvalid.exists_write C
      obtain ⟨more, hmore, hrest⟩ := ih hinterim
      refine ⟨bytes :: more, ?_, fun H rest => ?_⟩
      · rw [List.cons_append, List.mapM_cons, hbytes, hmore]
        rfl
      · obtain ⟨line, conn, hline, hresponse, hheaders⟩ := hread H (more.flatten ++ rest)
        rw [List.flatten_cons, List.append_assoc, readHead.eq_def]
        split
        · next h => cases hline.symm.trans h
        · next h =>
            cases hline.symm.trans h
            split
            · next h => cases hheaders.symm.trans h
            · next h =>
                cases hheaders.symm.trans h
                rw [hresponse, Option.map_some, if_pos (congrArg some hcontinue), hrest]
                rfl

end Read

/-! ## Pages that are read back -/

/-- A body, what is written for it after headers that read as `H`, and what comes after that on
the connection. -/
inductive WrittenBody (P : Platform) (H : Headers) : Bytes → Bytes → Bytes → Prop
  | chunked (pieces : List Bytes) (encoding rest) : (∀ s ∈ pieces, s ≠ []) →
      H (lit "transfer_encoding") = some encoding → encoding ≠ lit "identity" →
      WrittenBody P H pieces.flatten (pieces.flatMap writeChunk ++ writeChunk []) rest
  | sized (body length rest : Bytes) : (∀ e ∈ H (lit "transfer_encoding"), e = lit "identity") →
      H (lit "content_length") = some length → P.number length = some (body.length : ℤ) →
      WrittenBody P H body body rest
  | closed (body : Bytes) : (∀ e ∈ H (lit "transfer_encoding"), e = lit "identity") →
      H (lit "content_length") = none → H (lit "connection") = some (lit "close") →
      WrittenBody P H body body []

section Pages

variable {P : Platform} {H : Headers}

theorem extent_of_identity (h : ∀ e ∈ H (lit "transfer_encoding"), e = lit "identity") :
    ¬ (H (lit "transfer_encoding") ≠ none ∧
      H (lit "transfer_encoding") ≠ some (lit "identity")) := by
  rintro ⟨hnone, hne⟩
  obtain ⟨e, he⟩ := Option.ne_none_iff_exists'.mp hnone
  rw [he] at h hne
  exact hne (congrArg some (h e rfl))

/-- A body is read up to its end. -/
theorem WrittenBody.exists_read (C : ClosingConnection) {body written rest : Bytes}
    (h : WrittenBody P H body written rest) :
    ∃ e parts, extent P H = .ok e ∧ parts.flatten = body ∧
      readExtent C H (written ++ rest) e = (parts, .ok (H, rest)) := by
  cases h with
  | chunked pieces encoding _ hne hencoding hidentity =>
      obtain ⟨parts, hflat, hread⟩ :=
        chunkedReader_pieces (C := C.toConnection) hne H rest
      refine ⟨.chunked, parts, ?_, hflat, ?_⟩
      · rw [extent, hencoding, if_pos]
        exact ⟨Option.some_ne_none _, fun heq => hidentity (Option.some.inj heq)⟩
      · rw [readExtent, List.append_assoc, hread]
        rfl
  | sized _ length _ hplain hlength hnumber =>
      obtain ⟨parts, hread, hflat⟩ := C.readsize_block body rest
      refine ⟨.sized body.length, parts, ?_, hflat, ?_⟩
      · rw [extent, if_neg (extent_of_identity hplain), hlength]
        dsimp only
        rw [hnumber]
        dsimp only
        rw [if_pos (Int.natCast_nonneg _), Int.toNat_natCast]
      · rw [readExtent, hread]
  | closed _ hplain hlength hclose =>
      refine ⟨.closed, C.readall body, ?_, C.flatten_readall body, ?_⟩
      · rw [extent, if_neg (extent_of_identity hplain), hlength]
        exact if_pos hclose
      · rw [readExtent, List.append_nil]

/-- Responses with the status 100, one with another status and its body: the page has the headers
of all of them, and the body goes through the decoders that the headers ask for. -/
theorem readPage_writes (C : ClosingConnection) (P : Platform) {interim : List Head} {last : Head}
    {body written rest : Bytes} (hinterim : ∀ h ∈ interim, h.Valid ∧ h.status = 100)
    (hlast : last.Valid) (hstatus : last.status ≠ 100)
    (hbody : WrittenBody P ((interim ++ [last]).foldl (fun H h => merge H h.headers)
      fun _ => none) body written rest) :
    ∃ bytes parts, (interim ++ [last]).mapM Head.write = some bytes ∧ parts.flatten = body ∧
      let H := (interim ++ [last]).foldl (fun H h => merge H h.headers) fun _ => none
      readPage C P (bytes.flatten ++ (written ++ rest)) =
        .ok ⟨H, pipeReaders P H (parts, .ok (H, rest))⟩ := by
  obtain ⟨bytes, hbytes, hread⟩ := readHead_writes C.toConnection hinterim hlast hstatus
  obtain ⟨e, parts, hextent, hflat, hparts⟩ := hbody.exists_read C
  refine ⟨bytes, parts, hbytes, hflat, ?_⟩
  dsimp only
  rw [readPage, hread]
  change Except.ok (Page.mk _ _) = _
  refine congrArg (fun reading => Except.ok (Page.mk _ reading)) ?_
  rw [bodyReader, hextent]
  exact congrArg (pipeReaders P _) hparts

def continueHead : Head := ⟨100, lit "Continue", lit "1.1", Table.empty, ⟨id, fun _ => .rfl⟩⟩

def chunkedHead : Head where
  status := 200
  message := lit "OK"
  version := lit "1.1"
  headers := Table.empty.set (lit "transfer_encoding") (lit "chunked")
  order := ⟨id, fun _ => .rfl⟩

theorem version_one_one : Version (lit "1.1") :=
  ⟨[0x31], [0x31], by decide, by decide, by decide, List.all_eq_true.mp (by decide),
    List.all_eq_true.mp (by decide)⟩

theorem continueHead_valid : continueHead.Valid where
  status := by decide
  message := by decide
  version := version_one_one
  headers := ⟨fun k hk => absurd hk List.not_mem_nil, fun k v hv => by cases hv⟩

theorem chunkedHead_valid : chunkedHead.Valid where
  status := by decide
  message := by decide
  version := version_one_one
  headers := by
    have hkeys : chunkedHead.headers.keys = [lit "transfer_encoding"] := rfl
    constructor
    · intro k hk
      rw [hkeys, List.mem_singleton] at hk
      subst hk
      exact ⟨by decide, List.all_eq_true.mp (by decide)⟩
    · intro k v hv
      have hk := mem_keys_of_get hv
      rw [hkeys, List.mem_singleton] at hk
      subst hk
      obtain rfl : v = lit "chunked" := Option.some.inj (hv.symm.trans (get_set_self _ _ _))
      decide

/-- A value without blanks stays as it is. -/
theorem headerValue_of_none {v : Bytes} (h : ∀ b ∈ v, isBlank b = false) : headerValue v = v := by
  have hsqueeze := squeeze_append_of_none (d := 0x20) h []
  rw [List.append_nil, squeeze_nil, List.append_nil] at hsqueeze
  rw [headerValue, Support.normalize, hsqueeze]
  exact trim_eq_self (fun b hb => h b (List.mem_of_mem_head? hb))
    fun b hb => h b (List.mem_of_mem_getLast? hb)

theorem readRequest_chunkedHead :
    ∃ strings line conn, writeHeaders ⟨id, fun _ => .rfl⟩ chunkedHead.headers = .ok strings ∧
      bufferConnection.readline (writeRequestLine (lit "post") (lit "/") (lit "1.1") ++
        (strings.flatten ++ [])) = some (line, conn) ∧
      requestLine line = some (upper (lit "post"), lit "/", lit "1.1") ∧
      readHeaders bufferConnection (fun _ => none) conn =
        .ok (fun k => (chunkedHead.headers.get k).map headerValue, []) :=
  readRequest_writeRequest bufferConnection (by decide) (by decide) version_one_one
    chunkedHead_valid.headers _ _

def barePlatform : Platform := ⟨fun _ => none, fun _ r => r⟩

theorem readPage_chunkedHead :
    ∃ bytes parts, ([continueHead] ++ [chunkedHead]).mapM Head.write = some bytes ∧
      parts.flatten = [lit "ab", lit "c"].flatten ∧
      let H := ([continueHead] ++ [chunkedHead]).foldl (fun H h => merge H h.headers)
        fun _ => none
      readPage ⟨bufferConnection, fun s => [s], fun _ => List.flatten_singleton⟩ barePlatform
          (bytes.flatten ++ (([lit "ab", lit "c"].flatMap writeChunk ++ writeChunk []) ++ [])) =
        .ok ⟨H, pipeReaders barePlatform H (parts, .ok (H, []))⟩ := by
  apply readPage_writes
  · intro h hh
    rw [List.mem_singleton] at hh
    subst hh
    exact ⟨continueHead_valid, rfl⟩
  · exact chunkedHead_valid
  · decide
  · refine .chunked _ (lit "chunked") _ (by decide) ?_ (by decide)
    have hnone : (lit "chunked").all (fun b => isBlank b == false) = true := by decide
    have hvalue : headerValue (lit "chunked") = lit "chunked" :=
      headerValue_of_none fun b hb => beq_iff_eq.mp (List.all_eq_true.mp hnone b hb)
    exact congrArg some hvalue

end Pages

end LuaAttic.Http
