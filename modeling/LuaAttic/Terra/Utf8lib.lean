import Mathlib.Data.List.Basic
import Mathlib.Data.List.TakeWhile
import Mathlib.Tactic.IntervalCases
import LuaAttic.Utf8.Validity

/-!
# UTF-8 text in memory (`utf8lib.t`)

There are two ways to decode a text: a loop over `next`, which checks each sequence, and counting
first, where the text is decoded without checks when nothing invalid was counted.

Codepoints and indices do not reach the bounds of their types.  The action for what is invalid is
one of the four; for any other the functions fail an assertion.
-/

namespace LuaAttic.Terra.Utf8lib

/-! ## The modelled functions -/

/-- The bytes from a pointer on. -/
abbrev Memory := ℕ → UInt8

/-- `utf8.REPLACE`, `utf8.KEEP`, `utf8.SKIP`, `utf8.STOP` -/
inductive InvalidAction
  | replace | keep | skip | stop
  deriving DecidableEq, Repr

inductive Status
  | eof | ok | error
  deriving DecidableEq, Repr

/-- The test of the second byte of two. -/
def Trail2 (c2 : ℕ) : Prop := c2 ≥ 0x80 ∧ c2 ≤ 0xBF

/-- The test of the bytes after the first of three. -/
def Trail3 (c1 c2 c3 : ℕ) : Prop :=
  ¬ (c2 < 0x80 ∨ c2 > 0xBF ∨ c3 < 0x80 ∨ c3 > 0xBF ∨ (c1 = 0xE0 ∧ c2 < 0xA0) ∨
    (c1 = 0xED ∧ c2 > 0x9F))

/-- The test of the bytes after the first of four. -/
def Trail4 (c1 c2 c3 c4 : ℕ) : Prop :=
  ¬ (c2 < 0x80 ∨ c2 > 0xBF ∨ c3 < 0x80 ∨ c3 > 0xBF ∨ c3 < 0x80 ∨ c3 > 0xBF ∨ c4 < 0x80 ∨
    c4 > 0xBF ∨ (c1 = 0xF0 ∧ c2 < 0x90) ∨ (c1 = 0xF4 ∧ c2 > 0x8F))

instance (c2 : ℕ) : Decidable (Trail2 c2) := inferInstanceAs (Decidable (_ ∧ _))

instance (c1 c2 c3 : ℕ) : Decidable (Trail3 c1 c2 c3) := inferInstanceAs (Decidable (¬ _))

instance (c1 c2 c3 c4 : ℕ) : Decidable (Trail4 c1 c2 c3 c4) := inferInstanceAs (Decidable (¬ _))

def code2 (c1 c2 : ℕ) : ℕ := ((c1 &&& 0x1F) <<< 6) + (c2 &&& 0x3F)

def code3 (c1 c2 c3 : ℕ) : ℕ := ((c1 &&& 0x0F) <<< 12) + ((c2 &&& 0x3F) <<< 6) + (c3 &&& 0x3F)

def code4 (c1 c2 c3 c4 : ℕ) : ℕ :=
  ((c1 &&& 0x07) <<< 18) + ((c2 &&& 0x3F) <<< 12) + ((c3 &&& 0x3F) <<< 6) + (c4 &&& 0x3F)

/-- `utf8.next(buf, len, i)`: the status, the next index and the codepoint. -/
def next (buf : Memory) (len i : ℕ) : Status × ℕ × ℕ :=
  if i ≥ len then (.eof, i, 0)
  else
    let c1 := (buf i).toNat
    let c2 := (buf (i + 1)).toNat
    let c3 := (buf (i + 2)).toNat
    let c4 := (buf (i + 3)).toNat
    if c1 ≤ 0x7F then (.ok, i + 1, c1)
    else if c1 < 0xC2 then (.error, i + 1, c1)
    else if c1 ≤ 0xDF then
      if i + 1 < len ∧ Trail2 c2 then (.ok, i + 2, code2 c1 c2) else (.error, i + 1, c1)
    else if c1 ≤ 0xEF then
      -- the bounds for three and four bytes are no bounds: they are above the length
      if i + 1 < len + 1 ∧ Trail3 c1 c2 c3 then (.ok, i + 3, code3 c1 c2 c3)
      else (.error, i + 1, c1)
    else if c1 ≤ 0xF4 then
      if i + 1 < len + 2 ∧ Trail4 c1 c2 c3 c4 then (.ok, i + 4, code4 c1 c2 c3 c4)
      else (.error, i + 1, c1)
    else (.error, i + 1, c1)

/-- The length of the sequence with which `decode_counts` goes to `valid`. -/
def validLength (s : Memory) (p eof : ℕ) : Option ℕ :=
  let p0 := (s p).toNat
  let p1 := (s (p + 1)).toNat
  let p2 := (s (p + 2)).toNat
  let p3 := (s (p + 3)).toNat
  if p0 ≤ 0x7F then some 1
  else if p0 < 0xC2 then none
  else if p0 ≤ 0xDF then if p + 1 < eof ∧ Trail2 p1 then some 2 else none
  else if p0 ≤ 0xEF then if p + 2 < eof ∧ Trail3 p0 p1 p2 then some 3 else none
  else if p0 ≤ 0xF4 then if p + 3 < eof ∧ Trail4 p0 p1 p2 p3 then some 4 else none
  else none

theorem validLength_pos {s : Memory} {p eof k : ℕ} (h : validLength s p eof = some k) : 0 < k := by
  simp only [validLength] at h
  split_ifs at h <;> simp only [Option.some.injEq] at h <;> omega

/-- The loop of `decode_counts`. -/
def decodeCountsFrom (s : Memory) (eof maxn : ℕ) (a : InvalidAction) (p n q : ℕ) : ℕ × ℕ × ℕ :=
  if p < eof then
    match _h : validLength s p eof with
    | some k =>
        if n < maxn then decodeCountsFrom s eof maxn a (p + k) (n + 1) q else (n, p + k, q)
    | none =>
        match a with
        | .replace =>
            if n < maxn then decodeCountsFrom s eof maxn a (p + 1) (n + 1) (q + 1)
            else (n, p + 1, q + 1)
        | .keep =>
            if n < maxn then decodeCountsFrom s eof maxn a (p + 1) (n + 1) (q + 1)
            else (n, p + 1, q + 1)
        | .skip => decodeCountsFrom s eof maxn a (p + 1) n (q + 1)
        | .stop => (n, p + 1, q + 1)
  else (n, p, q)
  termination_by eof - p
  decreasing_by
    · have hpos := validLength_pos _h
      omega
    all_goals omega

/-- `decode_counts(s, len, maxn, invalid_action)`: the codepoints, the bytes, and what is
invalid. -/
def decodeCounts (s : Memory) (len maxn : ℕ) (a : InvalidAction) : ℕ × ℕ × ℕ :=
  decodeCountsFrom s len maxn a 0 0 0

/-- The loop of `fastdecode`. -/
def fastdecodeFrom (s : Memory) (len p : ℕ) : List ℕ :=
  if p < len then
    let c := (s p).toNat
    if c ≤ 0x7F then c :: fastdecodeFrom s len (p + 1)
    else if c ≤ 0xDF then code2 c (s (p + 1)).toNat :: fastdecodeFrom s len (p + 2)
    else if c ≤ 0xEF then
      code3 c (s (p + 1)).toNat (s (p + 2)).toNat :: fastdecodeFrom s len (p + 3)
    else
      code4 c (s (p + 1)).toNat (s (p + 2)).toNat (s (p + 3)).toNat ::
        fastdecodeFrom s len (p + 4)
  else []
  termination_by len - p

/-- `utf8.fastdecode(ss, len, us)`: the codepoints that are written. -/
def fastdecode (s : Memory) (len : ℕ) : List ℕ := fastdecodeFrom s len 0

theorem lt_of_next {buf : Memory} {len i i' cp : ℕ} {r : Status} (h : next buf len i = (r, i', cp))
    (hr : r ≠ .eof) : i < len ∧ i < i' := by
  simp only [next] at h
  split_ifs at h <;> simp only [Prod.mk.injEq] at h <;> grind

/-- The loop of `decode` over `codes`. -/
def decodeFrom (buf : Memory) (len outlen : ℕ) (a : InvalidAction) (repl i : ℕ) (out : List ℕ)
    (q : ℕ) : List ℕ × ℕ × ℕ :=
  match _h : next buf len i with
  | (.eof, _, _) => (out, len, q)
  | (.ok, i', cp) =>
      if out.length < outlen then decodeFrom buf len outlen a repl i' (out ++ [cp]) q
      else (out, i, q)
  | (.error, i', cp) =>
      match a with
      | .replace =>
          if out.length < outlen then decodeFrom buf len outlen a repl i' (out ++ [repl]) (q + 1)
          else (out, i, q + 1)
      | .keep =>
          if out.length < outlen then decodeFrom buf len outlen a repl i' (out ++ [cp]) (q + 1)
          else (out, i, q + 1)
      | .skip => decodeFrom buf len outlen a repl i' out (q + 1)
      | .stop => (out, i, q + 1)
  termination_by len - i
  decreasing_by
    all_goals
      have hlt := lt_of_next _h (by decide)
      omega

/-- `utf8.decode(buf, len, out, outlen, invalid_action, repl_cp)`: the codepoints that are
written, the index, and what is invalid. -/
def decode (buf : Memory) (len outlen : ℕ) (a : InvalidAction) (repl : ℕ) : List ℕ × ℕ × ℕ :=
  decodeFrom buf len outlen a repl 0 [] 0

/-- `utf8.decode(buf, len, maxlen, invalid_action, repl_cp)`, the array; `fresh` is what its
elements are before they are written, and without a value the assertion fails. -/
def decodeArr (fresh : ℕ → ℕ) (buf : Memory) (len maxlen : ℕ) (a : InvalidAction) (repl : ℕ) :
    Option (List ℕ × ℕ × ℕ) :=
  let counts := decodeCounts buf len maxlen a
  let n := counts.1
  if counts.2.2 = 0 then
    let out := fastdecode buf len
    if out.length = n then some (out, counts.2) else none
  else
    let out := (decode buf len n a repl).1
    some ((List.range n).map fun k => out.getD k (fresh k), counts.2)

/-- `utf8.isvalid(c)` -/
def isvalid (c : ℕ) : Bool := decide (c ≤ 0x10FFFF ∧ (c < 0xD800 ∨ c > 0xDFFF))

/-- `utf8.size(c)` -/
def size (c : ℕ) : ℕ :=
  if c ≤ 0x7F then 1 else if c ≤ 0x7FF then 2 else if c ≤ 0xFFFF then 3 else 4

/-- The loop of `encode_counts`. -/
def encodeCountsFrom (a : InvalidAction) (replLen : ℕ) : List ℕ → ℕ → ℕ → ℕ → Option (ℕ × ℕ)
  | [], _, b, q => some (b, q)
  | c :: us, i, b, q =>
      if isvalid c then encodeCountsFrom a replLen us (i + 1) (b + size c) q
      else
        match a with
        | .replace => encodeCountsFrom a replLen us (i + 1) (b + replLen) (q + 1)
        | .skip => encodeCountsFrom a replLen us (i + 1) b (q + 1)
        | .stop => some (b, i)
        | .keep => none

/-- `encode_counts(buf, len, invalid_action, repl_cp)`: the bytes and what is invalid, with STOP
the index of the first one. -/
def encodeCounts (us : List ℕ) (a : InvalidAction) (repl : ℕ) : Option (ℕ × ℕ) :=
  match a with
  | .replace => if isvalid repl then encodeCountsFrom a (size repl) us 0 0 0 else none
  | .skip => encodeCountsFrom a 0 us 0 0 0
  | .stop => encodeCountsFrom a 0 us 0 0 0
  | .keep => none

/-- The bytes that `encode` writes for a codepoint. -/
def charBytes (c : ℕ) : List UInt8 :=
  if c ≤ 0x7F then [.ofNat c]
  else if c ≤ 0x7FF then [.ofNat (0xC0 + (c >>> 6)), .ofNat (0x80 + (c &&& 0x3F))]
  else if c ≤ 0xFFFF then
    [.ofNat (0xE0 + (c >>> 12)), .ofNat (0x80 + ((c >>> 6) &&& 0x3F)),
      .ofNat (0x80 + (c &&& 0x3F))]
  else
    [.ofNat (0xF0 + (c >>> 18)), .ofNat (0x80 + ((c >>> 12) &&& 0x3F)),
      .ofNat (0x80 + ((c >>> 6) &&& 0x3F)), .ofNat (0x80 + (c &&& 0x3F))]

/-- The loop of `encode`; a codepoint is written when its last byte is before the end. -/
def encodeFrom (outlen : ℕ) (a : InvalidAction) (repl : ℕ) :
    List ℕ → List UInt8 → Option (List UInt8)
  | [], out => some out
  | c :: us, out =>
      if (c ≥ 0xD800 ∧ c ≤ 0xDFFF) ∨ c > 0x10FFFF then
        match a with
        | .replace =>
            if out.length + ((charBytes repl).length - 1) ≥ outlen then some out
            else encodeFrom outlen a repl us (out ++ charBytes repl)
        | .skip => encodeFrom outlen a repl us out
        | .stop => some out
        | .keep => none
      else if out.length + ((charBytes c).length - 1) ≥ outlen then some out
      else encodeFrom outlen a repl us (out ++ charBytes c)

/-- `utf8.encode(buf, len, out, outlen, invalid_action, repl_cp)`: the bytes that are written and
the two results. -/
def encode (us : List ℕ) (outlen : ℕ) (a : InvalidAction) (repl : ℕ) :
    Option (List UInt8 × ℕ × ℕ) := do
  if a = .replace ∧ ¬ isvalid repl then none
  let out ← encodeFrom outlen a repl us []
  some (out, outlen - (outlen - out.length), 0)

/-! ## Sequences of bytes -/

theorem and_1F (c : ℕ) : c &&& 0x1F = c % 32 := Nat.and_two_pow_sub_one_eq_mod c 5

theorem and_3F (c : ℕ) : c &&& 0x3F = c % 64 := Nat.and_two_pow_sub_one_eq_mod c 6

theorem code2_eq (c1 c2 : ℕ) : code2 c1 c2 = c1 % 32 * 64 + c2 % 64 := by
  rw [code2, and_1F, and_3F, Nat.shiftLeft_eq]

theorem code3_eq (c1 c2 c3 : ℕ) : code3 c1 c2 c3 = c1 % 16 * 4096 + c2 % 64 * 64 + c3 % 64 := by
  have hfirst : c1 &&& 0x0F = c1 % 16 := Nat.and_two_pow_sub_one_eq_mod c1 4
  rw [code3, hfirst, and_3F, and_3F, Nat.shiftLeft_eq, Nat.shiftLeft_eq]

theorem code4_eq (c1 c2 c3 c4 : ℕ) :
    code4 c1 c2 c3 c4 = c1 % 8 * 262144 + c2 % 64 * 4096 + c3 % 64 * 64 + c4 % 64 := by
  have hfirst : c1 &&& 0x07 = c1 % 8 := Nat.and_two_pow_sub_one_eq_mod c1 3
  rw [code4, hfirst, and_3F, and_3F, and_3F, Nat.shiftLeft_eq, Nat.shiftLeft_eq, Nat.shiftLeft_eq]

theorem charBytes_eq (c : ℕ) :
    charBytes c =
      if c ≤ 0x7F then [.ofNat c]
      else if c ≤ 0x7FF then [.ofNat (0xC0 + c / 64), .ofNat (0x80 + c % 64)]
      else if c ≤ 0xFFFF then
        [.ofNat (0xE0 + c / 4096), .ofNat (0x80 + c / 64 % 64), .ofNat (0x80 + c % 64)]
      else
        [.ofNat (0xF0 + c / 262144), .ofNat (0x80 + c / 4096 % 64), .ofNat (0x80 + c / 64 % 64),
          .ofNat (0x80 + c % 64)] := by
  simp only [charBytes, and_3F, Nat.shiftRight_eq_div_pow, Nat.reducePow]

@[simp] theorem charBytes_length (c : ℕ) : (charBytes c).length = size c := by
  rw [charBytes, size]
  split_ifs <;> rfl

theorem size_pos (c : ℕ) : 0 < size c := by
  rw [size]
  split_ifs <;> decide

/-- The bytes from an index on. -/
def slice (s : Memory) : ℕ → ℕ → List UInt8
  | _, 0 => []
  | p, n + 1 => s p :: slice s (p + 1) n

@[simp] theorem slice_length (s : Memory) (p n : ℕ) : (slice s p n).length = n := by
  induction n generalizing p with
  | zero => rfl
  | succ n ih => rw [slice, List.length_cons, ih]

theorem slice_add (s : Memory) (p m n : ℕ) :
    slice s p (m + n) = slice s p m ++ slice s (p + m) n := by
  induction m generalizing p with
  | zero => rw [Nat.zero_add, Nat.add_zero, slice, List.nil_append]
  | succ m ih =>
      have hp : p + (m + 1) = p + 1 + m := by omega
      rw [hp, Nat.succ_add, slice, ih, slice, List.cons_append]

theorem slice_eq_append {s : Memory} {p n : ℕ} {u v : List UInt8} (h : slice s p n = u ++ v) :
    slice s p u.length = u ∧ slice s (p + u.length) (n - u.length) = v ∧ u.length ≤ n := by
  have hlen : n = u.length + v.length := by
    rw [← slice_length s p n, h, List.length_append]
  rw [hlen, slice_add] at h
  obtain ⟨hu, hv⟩ := List.append_inj h (slice_length _ _ _)
  have hsub : n - u.length = v.length := by omega
  exact ⟨hu, by rw [hsub, hv], by omega⟩

/-- The sequence that begins at an index, as its length and its codepoint, without any bound. -/
def sequenceAt (s : Memory) (p : ℕ) : Option (ℕ × ℕ) :=
  let c1 := (s p).toNat
  let c2 := (s (p + 1)).toNat
  let c3 := (s (p + 2)).toNat
  let c4 := (s (p + 3)).toNat
  if c1 ≤ 0x7F then some (1, c1)
  else if c1 < 0xC2 then none
  else if c1 ≤ 0xDF then if Trail2 c2 then some (2, code2 c1 c2) else none
  else if c1 ≤ 0xEF then if Trail3 c1 c2 c3 then some (3, code3 c1 c2 c3) else none
  else if c1 ≤ 0xF4 then if Trail4 c1 c2 c3 c4 then some (4, code4 c1 c2 c3 c4) else none
  else none

theorem isvalid_iff {c : ℕ} : isvalid c = true ↔ c ≤ 0x10FFFF ∧ (c < 0xD800 ∨ c > 0xDFFF) :=
  decide_eq_true_iff

theorem eq_ofNat {b : UInt8} {n : ℕ} (h : b.toNat = n) : b = .ofNat n := by
  rw [← h, UInt8.ofNat_toNat]

theorem toNat_of_eq {b : UInt8} {n : ℕ} (h : b = .ofNat n) (hn : n < 256) : b.toNat = n := by
  rw [h, UInt8.toNat_ofNat', Nat.mod_eq_of_lt hn]

/-- A sequence is the bytes of a codepoint. -/
theorem sequenceAt_spec {s : Memory} {p k c : ℕ} (h : sequenceAt s p = some (k, c)) :
    isvalid c = true ∧ k = size c ∧ slice s p (size c) = charBytes c := by
  have hb := fun i => (s i).toNat_lt
  simp only [sequenceAt] at h
  split_ifs at h with h1 h2 h3 ht h4 ht h5 ht <;>
    simp only [Option.some.injEq, Prod.mk.injEq] at h <;> obtain ⟨rfl, rfl⟩ := h
  · rw [isvalid_iff, size, charBytes, if_pos h1, if_pos h1]
    exact ⟨by omega, rfl, congrArg (fun b => [b]) (eq_ofNat rfl)⟩
  · rw [isvalid_iff, size, charBytes_eq, code2_eq]
    simp only [Trail2] at ht
    rw [if_neg (by omega), if_pos (by omega), if_neg (by omega), if_pos (by omega)]
    refine ⟨by omega, rfl, ?_⟩
    simp only [slice, List.cons.injEq, and_true]
    exact ⟨eq_ofNat (by omega), eq_ofNat (by omega)⟩
  · rw [isvalid_iff, size, charBytes_eq, code3_eq]
    simp only [Trail3] at ht
    rw [if_neg (by omega), if_neg (by omega), if_pos (by omega), if_neg (by omega),
      if_neg (by omega), if_pos (by omega)]
    refine ⟨by omega, rfl, ?_⟩
    simp only [slice, List.cons.injEq, and_true, Nat.add_assoc, Nat.reduceAdd]
    exact ⟨eq_ofNat (by omega), eq_ofNat (by omega), eq_ofNat (by omega)⟩
  · rw [isvalid_iff, size, charBytes_eq, code4_eq]
    simp only [Trail4] at ht
    rw [if_neg (by omega), if_neg (by omega), if_neg (by omega), if_neg (by omega),
      if_neg (by omega), if_neg (by omega)]
    refine ⟨by omega, rfl, ?_⟩
    simp only [slice, List.cons.injEq, and_true, Nat.add_assoc, Nat.reduceAdd]
    exact ⟨eq_ofNat (by omega), eq_ofNat (by omega), eq_ofNat (by omega), eq_ofNat (by omega)⟩

/-- The bytes of a codepoint are a sequence. -/
theorem sequenceAt_of_charBytes {s : Memory} {p c : ℕ} (hc : isvalid c = true)
    (h : slice s p (size c) = charBytes c) : sequenceAt s p = some (size c, c) := by
  rw [isvalid_iff] at hc
  rw [charBytes_eq, size] at h
  rw [size, sequenceAt]
  split_ifs at h with h1 h2 h3 <;>
    simp only [slice, List.cons.injEq, and_true, Nat.add_assoc, Nat.reduceAdd] at h
  · have hb := toNat_of_eq h (by omega)
    rw [hb, if_pos h1, if_pos h1]
  · obtain ⟨ha, hb⟩ := h
    have ha := toNat_of_eq ha (by omega)
    have hb := toNat_of_eq hb (by omega)
    have htrail : Trail2 (0x80 + c % 64) := by
      rw [Trail2]
      omega
    rw [ha, hb, code2_eq, if_neg (by omega), if_neg (by omega), if_pos (by omega), if_pos htrail,
      if_neg h1, if_pos h2, Option.some_inj, Prod.mk.injEq]
    omega
  · obtain ⟨ha, hb, hd⟩ := h
    have ha := toNat_of_eq ha (by omega)
    have hb := toNat_of_eq hb (by omega)
    have hd := toNat_of_eq hd (by omega)
    have htrail : Trail3 (0xE0 + c / 4096) (0x80 + c / 64 % 64) (0x80 + c % 64) := by
      rw [Trail3]
      omega
    rw [ha, hb, hd, code3_eq, if_neg (by omega), if_neg (by omega), if_neg (by omega),
      if_pos (by omega), if_pos htrail, if_neg h1, if_neg h2, if_pos h3, Option.some_inj,
      Prod.mk.injEq]
    omega
  · obtain ⟨ha, hb, hd, he⟩ := h
    have ha := toNat_of_eq ha (by omega)
    have hb := toNat_of_eq hb (by omega)
    have hd := toNat_of_eq hd (by omega)
    have he := toNat_of_eq he (by omega)
    have htrail : Trail4 (0xF0 + c / 262144) (0x80 + c / 4096 % 64) (0x80 + c / 64 % 64)
        (0x80 + c % 64) := by
      rw [Trail4]
      omega
    rw [ha, hb, hd, he, code4_eq, if_neg (by omega), if_neg (by omega), if_neg (by omega),
      if_neg (by omega), if_pos (by omega), if_pos htrail, if_neg h1, if_neg h2, if_neg h3,
      Option.some_inj, Prod.mk.injEq]
    omega

/-- A codepoint whose bytes begin at an index. -/
structure Begins (s : Memory) (p c : ℕ) : Prop where
  valid : isvalid c = true
  bytes : slice s p (size c) = charBytes c

theorem sequenceAt_eq_some {s : Memory} {p k c : ℕ} :
    sequenceAt s p = some (k, c) ↔ k = size c ∧ Begins s p c := by
  constructor
  · intro h
    obtain ⟨hvalid, hk, hbytes⟩ := sequenceAt_spec h
    exact ⟨hk, hvalid, hbytes⟩
  · rintro ⟨rfl, hvalid, hbytes⟩
    exact sequenceAt_of_charBytes hvalid hbytes

theorem sequenceAt_eq_none {s : Memory} {p : ℕ} :
    sequenceAt s p = none ↔ ∀ c, ¬ Begins s p c := by
  constructor
  · intro h c hc
    exact absurd (sequenceAt_eq_some.mpr ⟨rfl, hc⟩) (by simp [h])
  · intro h
    rcases hs : sequenceAt s p with _ | ⟨k, c⟩
    · rfl
    · exact absurd (sequenceAt_eq_some.mp hs).2 (h c)

/-! ## What begins at an index -/

/-- The iteration checks the end for two bytes only. -/
theorem next_eq (buf : Memory) (len i : ℕ) :
    next buf len i =
      if len ≤ i then (.eof, i, 0)
      else
        match sequenceAt buf i with
        | some (k, c) =>
            if k = 2 ∧ len ≤ i + 1 then (.error, i + 1, (buf i).toNat) else (.ok, i + k, c)
        | none => (.error, i + 1, (buf i).toNat) := by
  simp only [next, sequenceAt, ge_iff_le]
  split_ifs <;> first | rfl | (simp_all; try omega)

/-- A sequence of three bytes goes on after the end of a text of one byte. -/
example : next (fun k => [0xE2, 0x82, 0xAC].getD k 0) 1 0 = (.ok, 3, 0x20AC) := by decide

/-- The counting checks the end for each sequence. -/
theorem validLength_eq (s : Memory) (p eof : ℕ) (hp : p < eof) :
    validLength s p eof =
      match sequenceAt s p with
      | some (k, _) => if p + k ≤ eof then some k else none
      | none => none := by
  simp only [validLength, sequenceAt]
  split_ifs <;> first | rfl | (simp_all; try omega)

section Steps

variable {s : Memory} {p eof c : ℕ}

theorem validLength_of_begins (hc : Begins s p c) (hp : p + size c ≤ eof) :
    validLength s p eof = some (size c) := by
  have hpos := size_pos c
  rw [validLength_eq s p eof (by omega), sequenceAt_eq_some.mpr ⟨rfl, hc⟩]
  exact if_pos hp

theorem validLength_of_not (hp : p < eof) (hno : ∀ c, Begins s p c → eof < p + size c) :
    validLength s p eof = none := by
  rw [validLength_eq s p eof hp]
  rcases hs : sequenceAt s p with _ | ⟨k, c⟩
  · rfl
  · obtain ⟨rfl, hc⟩ := sequenceAt_eq_some.mp hs
    exact if_neg (Nat.not_le.mpr (hno c hc))

theorem next_of_begins (hc : Begins s p c) (hp : p + size c ≤ eof) :
    next s eof p = (.ok, p + size c, c) := by
  have hpos := size_pos c
  rw [next_eq, if_neg (by omega), sequenceAt_eq_some.mpr ⟨rfl, hc⟩]
  exact if_neg (by omega)

/-- The bytes after the first one are trailing bytes. -/
theorem Begins.trail (hc : Begins s p c) {k : ℕ} (hk : 0 < k) (hlt : k < size c) :
    Trail2 (s (p + k)).toNat := by
  obtain ⟨hvalid, hbytes⟩ := hc
  rw [isvalid_iff] at hvalid
  rw [charBytes_eq, size] at hbytes
  rw [size] at hlt
  have hmod (n : ℕ) {b : UInt8} (h : b = .ofNat (0x80 + n % 64)) : Trail2 b.toNat := by
    rw [toNat_of_eq h (by omega), Trail2]
    omega
  split_ifs at hbytes hlt with h1 h2 h3 <;>
    simp only [slice, List.cons.injEq, and_true, Nat.add_assoc, Nat.reduceAdd] at hbytes
  · omega
  · obtain rfl : k = 1 := by omega
    exact hmod _ hbytes.2
  · obtain rfl | rfl : k = 1 ∨ k = 2 := by omega
    · exact hmod _ hbytes.2.1
    · exact hmod _ hbytes.2.2
  · obtain rfl | rfl | rfl : k = 1 ∨ k = 2 ∨ k = 3 := by omega
    · exact hmod _ hbytes.2.1
    · exact hmod _ hbytes.2.2.1
    · exact hmod _ hbytes.2.2.2

/-- A sequence that the end cuts off is none where no trailing byte comes after the end. -/
theorem next_of_not (hp : p < eof) (hno : ∀ c, Begins s p c → eof < p + size c)
    (hend : ¬ Trail2 (s eof).toNat) : next s eof p = (.error, p + 1, (s p).toNat) := by
  rw [next_eq, if_neg (Nat.not_le.mpr hp)]
  rcases hs : sequenceAt s p with _ | ⟨k, c⟩
  · rfl
  · obtain ⟨rfl, hc⟩ := sequenceAt_eq_some.mp hs
    have htrail := hc.trail (k := eof - p) (by omega) (by have := hno c hc; omega)
    rw [Nat.add_sub_cancel' hp.le] at htrail
    exact absurd htrail hend

theorem fastdecodeFrom_of_begins (hc : Begins s p c) (hp : p < eof) :
    fastdecodeFrom s eof p = c :: fastdecodeFrom s eof (p + size c) := by
  have hs := sequenceAt_eq_some.mpr ⟨rfl, hc⟩
  rw [fastdecodeFrom, if_pos hp]
  simp only [sequenceAt] at hs
  split_ifs at hs with h1 h2 h3 ht h4 ht h5 ht <;>
    simp only [Option.some.injEq, Prod.mk.injEq] at hs <;> obtain ⟨hk, hcode⟩ := hs
  · rw [← hk, ← hcode, if_pos h1]
  · rw [← hk, ← hcode, if_neg h1, if_pos h3]
  · rw [← hk, ← hcode, if_neg h1, if_neg h3, if_pos h4]
  · rw [← hk, ← hcode, if_neg h1, if_neg h3, if_neg h4]

end Steps

/-! ## The pieces of a text -/

/-- A codepoint, or a byte where none begins. -/
inductive Piece
  | char (c : ℕ)
  | byte (b : UInt8)

/-- The bytes up to the end, taken apart: a sequence that the end does not cut off where there
is one, otherwise a byte. -/
inductive Pieces (s : Memory) (eof : ℕ) : ℕ → List Piece → Prop
  | nil : Pieces s eof eof []
  | char {p c : ℕ} {l : List Piece} (hc : Begins s p c) (hp : p + size c ≤ eof)
      (hl : Pieces s eof (p + size c) l) : Pieces s eof p (.char c :: l)
  | byte {p : ℕ} {l : List Piece} (hp : p < eof) (hno : ∀ c, Begins s p c → eof < p + size c)
      (hl : Pieces s eof (p + 1) l) : Pieces s eof p (.byte (s p) :: l)

theorem exists_pieces (s : Memory) {eof p : ℕ} (hp : p ≤ eof) : ∃ l, Pieces s eof p l := by
  induction hn : eof - p using Nat.strong_induction_on generalizing p with
  | _ n ih =>
      rcases hp.eq_or_lt with rfl | hlt
      · exact ⟨[], .nil⟩
      · by_cases hc : ∃ c, Begins s p c ∧ p + size c ≤ eof
        · obtain ⟨c, hc, hle⟩ := hc
          have hpos := size_pos c
          obtain ⟨l, hl⟩ := ih (eof - (p + size c)) (by omega) hle rfl
          exact ⟨.char c :: l, .char hc hle hl⟩
        · obtain ⟨l, hl⟩ := ih (eof - (p + 1)) (by omega) hlt rfl
          exact ⟨.byte (s p) :: l,
            .byte hlt (fun c hb => Nat.lt_of_not_le fun hle => hc ⟨c, hb, hle⟩) hl⟩

/-- What the decoders give for a text. -/
def outputs (a : InvalidAction) (repl : ℕ) : List Piece → List ℕ
  | [] => []
  | .char c :: l => c :: outputs a repl l
  | .byte b :: l =>
      match a with
      | .replace => repl :: outputs a repl l
      | .keep => b.toNat :: outputs a repl l
      | .skip => outputs a repl l
      | .stop => []

theorem length_outputs_le (a : InvalidAction) (repl : ℕ) (l : List Piece) :
    (outputs a repl l).length ≤ l.length := by
  induction l with
  | nil => exact le_rfl
  | cons x l ih =>
      cases x with
      | char c => exact Nat.succ_le_succ ih
      | byte b =>
          cases a with
          | replace => exact Nat.succ_le_succ ih
          | keep => exact Nat.succ_le_succ ih
          | skip => exact ih.trans (Nat.le_succ _)
          | stop => exact Nat.zero_le _

/-- The number of bytes where no codepoint begins. -/
def invalid : List Piece → ℕ
  | [] => 0
  | .char _ :: l => invalid l
  | .byte _ :: l => invalid l + 1

theorem invalid_eq_zero {l : List Piece} : invalid l = 0 ↔ ∀ b, .byte b ∉ l := by
  induction l with
  | nil => simp [invalid]
  | cons x l ih =>
      cases x with
      | char c => simp [invalid, ih]
      | byte b => simpa [invalid] using ⟨b, fun h => absurd rfl h⟩

section Runs

variable {s : Memory} {eof maxn p n q repl : ℕ} {a : InvalidAction} {l : List Piece}

theorem decodeCountsFrom_char {c : ℕ} (hc : Begins s p c) (hp : p + size c ≤ eof) :
    decodeCountsFrom s eof maxn a p n q =
      if n < maxn then decodeCountsFrom s eof maxn a (p + size c) (n + 1) q
      else (n, p + size c, q) := by
  have hpos := size_pos c
  have hlength := validLength_of_begins hc hp
  rw [decodeCountsFrom.eq_def, if_pos (by omega)]
  split
  · rename_i k hk
    obtain rfl : size c = k := Option.some.inj (hlength.symm.trans hk)
    rfl
  · rename_i hk
    exact absurd (hlength.symm.trans hk) (by simp)

theorem decodeCountsFrom_byte (hp : p < eof) (hno : ∀ c, Begins s p c → eof < p + size c) :
    decodeCountsFrom s eof maxn a p n q =
      match a with
      | .skip => decodeCountsFrom s eof maxn a (p + 1) n (q + 1)
      | .stop => (n, p + 1, q + 1)
      | _ =>
          if n < maxn then decodeCountsFrom s eof maxn a (p + 1) (n + 1) (q + 1)
          else (n, p + 1, q + 1) := by
  have hlength := validLength_of_not hp hno
  rw [decodeCountsFrom.eq_def, if_pos hp]
  split
  · rename_i k hk
    exact absurd (hlength.symm.trans hk) (by simp)
  · cases a <;> rfl

theorem decodeCountsFrom_end : decodeCountsFrom s eof maxn a eof n q = (n, eof, q) := by
  rw [decodeCountsFrom.eq_def, if_neg (Nat.lt_irrefl eof)]

/-- The codepoints are counted up to the bound. -/
theorem decodeCountsFrom_fst (repl : ℕ) (hl : Pieces s eof p l) (hn : n ≤ maxn) :
    (decodeCountsFrom s eof maxn a p n q).1 = min maxn (n + (outputs a repl l).length) := by
  induction hl generalizing n q with
  | nil =>
      rw [decodeCountsFrom_end, outputs, List.length_nil]
      omega
  | char hc hp _ ih =>
      rw [decodeCountsFrom_char hc hp, outputs, List.length_cons]
      split
      · rename_i hlt
        rw [ih hlt]
        omega
      · omega
  | @byte p l hp hno _ ih =>
      have hemit : (if n < maxn then decodeCountsFrom s eof maxn a (p + 1) (n + 1) (q + 1)
          else (n, p + 1, q + 1)).1 = min maxn (n + ((outputs a repl l).length + 1)) := by
        split
        · rename_i hlt
          rw [ih hlt]
          omega
        · omega
      rw [decodeCountsFrom_byte hp hno]
      cases a with
      | replace => exact hemit
      | keep => exact hemit
      | skip => exact ih hn
      | stop =>
          change n = min maxn (n + 0)
          omega

/-- Nothing invalid is counted where the pieces that are looked at are codepoints. -/
theorem decodeCountsFrom_invalid (hl : Pieces s eof p l) (hn : n ≤ maxn) :
    q ≤ (decodeCountsFrom s eof maxn a p n q).2.2 ∧
      ((decodeCountsFrom s eof maxn a p n q).2.2 = q ↔
        ∀ b, .byte b ∉ l.take (maxn - n + 1)) := by
  induction hl generalizing n q with
  | nil => simp [decodeCountsFrom_end]
  | char hc hp _ ih =>
      rw [decodeCountsFrom_char hc hp, List.take_succ_cons]
      split
      · rename_i hlt
        have hsub : maxn - n = maxn - (n + 1) + 1 := by omega
        rw [hsub]
        simpa using ih (n := n + 1) (q := q) hlt
      · rename_i hlt
        have hsub : maxn - n = 0 := by omega
        simp [hsub]
  | @byte p l hp hno _ ih =>
      have hmem : ¬ ∀ b, Piece.byte b ∉ (Piece.byte (s p) :: l).take (maxn - n + 1) :=
        fun h => h (s p) List.mem_cons_self
      have hmore : q + 1 ≤ (decodeCountsFrom s eof maxn a p n q).2.2 := by
        rw [decodeCountsFrom_byte hp hno]
        have hvalid : q + 1 ≤ (if n < maxn then
            decodeCountsFrom s eof maxn a (p + 1) (n + 1) (q + 1) else (n, p + 1, q + 1)).2.2 := by
          split
          · rename_i hlt
            exact (ih hlt).1
          · exact le_rfl
        cases a with
        | replace => exact hvalid
        | keep => exact hvalid
        | skip => exact (ih hn).1
        | stop => exact le_rfl
      exact ⟨by omega, fun he => by omega, fun he => absurd he hmem⟩

/-- All pieces are counted where there is room for them and no stop. -/
theorem decodeCountsFrom_all (repl : ℕ) (hl : Pieces s eof p l)
    (hstop : a ≠ .stop ∨ invalid l = 0) (hn : n + (outputs a repl l).length ≤ maxn) :
    decodeCountsFrom s eof maxn a p n q =
      (n + (outputs a repl l).length, eof, q + invalid l) := by
  induction hl generalizing n q with
  | nil => exact decodeCountsFrom_end
  | @char p c l hc hp _ ih =>
      rw [outputs, List.length_cons] at hn ⊢
      rw [decodeCountsFrom_char hc hp, if_pos (by omega), ih hstop (by omega), invalid,
        Nat.add_right_comm, Nat.add_assoc]
  | @byte p l hp hno _ ih =>
      have hne : a ≠ .stop := hstop.resolve_right (Nat.succ_ne_zero _)
      have hsum : q + (invalid l + 1) = q + 1 + invalid l := by omega
      rw [decodeCountsFrom_byte hp hno, invalid, hsum]
      have hvalid (h : n + ((outputs a repl l).length + 1) ≤ maxn) :
          (if n < maxn then decodeCountsFrom s eof maxn a (p + 1) (n + 1) (q + 1)
            else (n, p + 1, q + 1)) =
            (n + ((outputs a repl l).length + 1), eof, q + 1 + invalid l) := by
        rw [if_pos (by omega), ih (.inl hne) (by omega), Nat.add_right_comm, Nat.add_assoc]
      cases a with
      | replace => exact hvalid hn
      | keep => exact hvalid hn
      | skip => exact ih (.inl hne) hn
      | stop => exact absurd rfl hne

/-- Decoding without checks gives the codepoints. -/
theorem fastdecodeFrom_of_pieces (a : InvalidAction) (repl : ℕ) (hl : Pieces s eof p l)
    (hchars : invalid l = 0) : fastdecodeFrom s eof p = outputs a repl l := by
  induction hl with
  | nil =>
      rw [fastdecodeFrom, if_neg (Nat.lt_irrefl eof)]
      rfl
  | @char p c l hc hp _ ih =>
      have hpos := size_pos c
      rw [fastdecodeFrom_of_begins hc (by omega), outputs, ih hchars]
  | byte => exact absurd hchars (Nat.succ_ne_zero _)

/-- It does not check how many there are. -/
theorem le_length_fastdecodeFrom {k : ℕ} (hl : Pieces s eof p l) (hk : k ≤ l.length)
    (hchars : ∀ b, .byte b ∉ l.take k) : k ≤ (fastdecodeFrom s eof p).length := by
  induction hl generalizing k with
  | nil => exact hk.trans (Nat.zero_le _)
  | @char p c l hc hp _ ih =>
      have hpos := size_pos c
      rw [fastdecodeFrom_of_begins hc (by omega), List.length_cons]
      cases k with
      | zero => exact Nat.zero_le _
      | succ k =>
          have hle := ih (Nat.le_of_succ_le_succ hk)
            fun b hb => hchars b (List.mem_cons_of_mem _ hb)
          omega
  | byte =>
      cases k with
      | zero => exact Nat.zero_le _
      | succ k => exact absurd List.mem_cons_self (hchars _)

section Decode

variable {i outlen : ℕ} {out : List ℕ}

theorem decodeFrom_char {c : ℕ} (hc : Begins s p c) (hp : p + size c ≤ eof) :
    decodeFrom s eof outlen a repl p out q =
      if out.length < outlen then decodeFrom s eof outlen a repl (p + size c) (out ++ [c]) q
      else (out, p, q) := by
  have hnext := next_of_begins hc hp
  rw [decodeFrom.eq_def]
  split
  all_goals
    rename_i heq
    cases hnext.symm.trans heq
  rfl

theorem decodeFrom_byte (hp : p < eof) (hno : ∀ c, Begins s p c → eof < p + size c)
    (hend : ¬ Trail2 (s eof).toNat) :
    decodeFrom s eof outlen a repl p out q =
      match a with
      | .replace =>
          if out.length < outlen then decodeFrom s eof outlen a repl (p + 1) (out ++ [repl]) (q + 1)
          else (out, p, q + 1)
      | .keep =>
          if out.length < outlen then
            decodeFrom s eof outlen a repl (p + 1) (out ++ [(s p).toNat]) (q + 1)
          else (out, p, q + 1)
      | .skip => decodeFrom s eof outlen a repl (p + 1) out (q + 1)
      | .stop => (out, p, q + 1) := by
  have hnext := next_of_not hp hno hend
  rw [decodeFrom.eq_def]
  split
  all_goals
    rename_i heq
    cases hnext.symm.trans heq
  cases a <;> rfl

theorem decodeFrom_end : decodeFrom s eof outlen a repl eof out q = (out, eof, q) := by
  have hnext : next s eof eof = (.eof, eof, 0) := by rw [next_eq, if_pos le_rfl]
  rw [decodeFrom.eq_def]
  split
  all_goals
    rename_i heq
    cases hnext.symm.trans heq
  rfl

/-- The buffer is filled up to its length. -/
theorem decodeFrom_fst (hl : Pieces s eof p l) (hend : ¬ Trail2 (s eof).toNat ∨ invalid l = 0)
    (hout : out.length ≤ outlen) :
    (decodeFrom s eof outlen a repl p out q).1 =
      out ++ (outputs a repl l).take (outlen - out.length) := by
  induction hl generalizing out q with
  | nil => rw [decodeFrom_end, outputs, List.take_nil, List.append_nil]
  | @char p c l hc hp _ ih =>
      rw [decodeFrom_char hc hp, outputs]
      split
      · rename_i hlt
        have hsub : outlen - out.length = outlen - (out ++ [c]).length + 1 := by
          rw [List.length_append, List.length_singleton]
          omega
        rw [ih hend (by rw [List.length_append, List.length_singleton]; omega), hsub,
          List.take_succ_cons, List.append_assoc, List.singleton_append]
      · rename_i hlt
        rw [Nat.sub_eq_zero_of_le (by omega), List.take_zero, List.append_nil]
  | @byte p l hp hno _ ih =>
      have hend := hend.resolve_right (Nat.succ_ne_zero _)
      have hput (x : ℕ) : (if out.length < outlen then
          decodeFrom s eof outlen a repl (p + 1) (out ++ [x]) (q + 1) else (out, p, q + 1)).1 =
          out ++ (x :: outputs a repl l).take (outlen - out.length) := by
        split
        · rename_i hlt
          have hsub : outlen - out.length = outlen - (out ++ [x]).length + 1 := by
            rw [List.length_append, List.length_singleton]
            omega
          rw [ih (.inl hend) (by rw [List.length_append, List.length_singleton]; omega), hsub,
            List.take_succ_cons, List.append_assoc, List.singleton_append]
        · rename_i hlt
          rw [Nat.sub_eq_zero_of_le (by omega), List.take_zero, List.append_nil]
      rw [decodeFrom_byte hp hno hend]
      cases a with
      | replace => exact hput repl
      | keep => exact hput _
      | skip => exact ih (.inl hend) hout
      | stop =>
          rw [outputs, List.take_nil, List.append_nil]

/-- The index and what is invalid, where the buffer is long enough and there is no stop. -/
theorem decodeFrom_snd (hl : Pieces s eof p l) (hend : ¬ Trail2 (s eof).toNat ∨ invalid l = 0)
    (hstop : a ≠ .stop ∨ invalid l = 0)
    (hout : out.length + (outputs a repl l).length ≤ outlen) :
    (decodeFrom s eof outlen a repl p out q).2 = (eof, q + invalid l) := by
  induction hl generalizing out q with
  | nil => rw [decodeFrom_end, invalid, Nat.add_zero]
  | @char p c l hc hp _ ih =>
      rw [outputs, List.length_cons] at hout
      rw [decodeFrom_char hc hp, if_pos (by omega), invalid]
      exact ih hend hstop (by rw [List.length_append, List.length_singleton]; omega)
  | @byte p l hp hno _ ih =>
      have hend := hend.resolve_right (Nat.succ_ne_zero _)
      have hne : a ≠ .stop := hstop.resolve_right (Nat.succ_ne_zero _)
      have hsum : q + (invalid l + 1) = q + 1 + invalid l := by omega
      rw [decodeFrom_byte hp hno hend, invalid, hsum]
      have hput (x : ℕ) (h : out.length + ((outputs a repl l).length + 1) ≤ outlen) :
          (if out.length < outlen then decodeFrom s eof outlen a repl (p + 1) (out ++ [x]) (q + 1)
            else (out, p, q + 1)).2 = (eof, q + 1 + invalid l) := by
        rw [if_pos (by omega)]
        exact ih (.inl hend) (.inl hne) (by rw [List.length_append, List.length_singleton]; omega)
      cases a with
      | replace => exact hput repl hout
      | keep => exact hput _ hout
      | skip => exact ih (.inl hend) (.inl hne) hout
      | stop => exact absurd rfl hne

end Decode

end Runs

/-! ## Encoded texts -/

section Encoded

variable {s : Memory} {eof p : ℕ} {l : List Piece} {us : List ℕ}

/-- A text that begins with encoded codepoints begins with these pieces. -/
theorem Pieces.prefix_of_bytes (hl : Pieces s eof p l) (hvalid : ∀ c ∈ us, isvalid c = true)
    {t : List UInt8} (h : slice s p (eof - p) = us.flatMap charBytes ++ t) :
    us.map .char <+: l := by
  induction us generalizing p l with
  | nil => exact List.nil_prefix
  | cons c us ih =>
      rw [List.flatMap_cons, List.append_assoc] at h
      obtain ⟨hbytes, hrest, hle⟩ := slice_eq_append h
      rw [charBytes_length] at hbytes hrest hle
      have hpos := size_pos c
      have hc : Begins s p c := ⟨hvalid c List.mem_cons_self, hbytes⟩
      cases hl with
      | nil => omega
      | @char _ c' l hc' hp hl =>
          obtain rfl : c' = c := by
            have heq := (sequenceAt_eq_some.mpr ⟨rfl, hc'⟩).symm.trans
              (sequenceAt_eq_some.mpr ⟨rfl, hc⟩)
            exact (Prod.mk.inj (Option.some.inj heq)).2
          rw [Nat.sub_sub] at hrest
          exact (List.prefix_cons_inj _).mpr
            (ih hl (fun c h => hvalid c (List.mem_cons_of_mem _ h)) hrest)
      | byte hp hno hl => exact absurd (hno c hc) (by omega)

/-- The first pieces, none of them a byte, are the codepoints of an encoded text, and the others
are the pieces of what is after it. -/
theorem Pieces.exists_codepoints (hl : Pieces s eof p l) {k : ℕ} (hk : k ≤ l.length)
    (hchars : ∀ b, .byte b ∉ l.take k) :
    ∃ (us : List ℕ) (r : ℕ), us.length = k ∧ (∀ c ∈ us, isvalid c = true) ∧
      l = us.map .char ++ l.drop k ∧ Pieces s eof r (l.drop k) ∧
      slice s p (eof - p) = us.flatMap charBytes ++ slice s r (eof - r) := by
  induction hl generalizing k with
  | nil =>
      obtain rfl := Nat.le_zero.mp hk
      exact ⟨[], eof, rfl, fun c hc => absurd hc List.not_mem_nil, rfl, .nil, rfl⟩
  | @char p c l hc hp hl ih =>
      cases k with
      | zero => exact ⟨[], p, rfl, fun c hc => absurd hc List.not_mem_nil, rfl, .char hc hp hl, rfl⟩
      | succ k =>
          obtain ⟨us, r, hlen, hvalid, hsplit, hrest, hbytes⟩ := ih (Nat.le_of_succ_le_succ hk)
            fun b hb => hchars b (List.mem_cons_of_mem _ hb)
          refine ⟨c :: us, r, congrArg (· + 1) hlen, List.forall_mem_cons.mpr ⟨hc.valid, hvalid⟩,
            congrArg (_ :: ·) hsplit, hrest, ?_⟩
          have hsum : eof - p = size c + (eof - (p + size c)) := by omega
          rw [hsum, slice_add, hc.bytes, hbytes, List.flatMap_cons, List.append_assoc]
  | @byte p l hp hno hl =>
      cases k with
      | zero =>
          exact ⟨[], p, rfl, fun c hc => absurd hc List.not_mem_nil, rfl, .byte hp hno hl, rfl⟩
      | succ k => exact absurd List.mem_cons_self (hchars _)

/-- Pieces without bytes are the codepoints of an encoded text. -/
theorem Pieces.exists_eq_map_char (hl : Pieces s eof p l) (hchars : ∀ b, .byte b ∉ l) :
    ∃ us : List ℕ, (∀ c ∈ us, isvalid c = true) ∧ l = us.map .char ∧
      slice s p (eof - p) = us.flatMap charBytes := by
  obtain ⟨us, r, -, hvalid, hsplit, hrest, hbytes⟩ := hl.exists_codepoints le_rfl
    fun b hb => hchars b (List.mem_of_mem_take hb)
  rw [List.drop_length] at hsplit hrest
  cases hrest
  rw [List.append_nil] at hsplit
  rw [Nat.sub_self, slice, List.append_nil] at hbytes
  exact ⟨us, hvalid, hsplit, hbytes⟩

theorem Pieces.length_le (hl : Pieces s eof p l) : l.length ≤ eof - p := by
  induction hl with
  | nil => exact Nat.zero_le _
  | @char p c l _ hp _ ih =>
      have hpos := size_pos c
      rw [List.length_cons]
      omega
  | byte hp _ _ ih =>
      rw [List.length_cons]
      omega

theorem invalid_map_char (us : List ℕ) : invalid (us.map .char) = 0 := by
  rw [invalid_eq_zero]
  simp

theorem outputs_map_char (a : InvalidAction) (repl : ℕ) (us : List ℕ) :
    outputs a repl (us.map .char) = us := by
  induction us with
  | nil => rfl
  | cons c us ih => rw [List.map_cons, outputs, ih]

/-- The pieces of an encoded text. -/
theorem pieces_of_bytes (hp : p ≤ eof) (hvalid : ∀ c ∈ us, isvalid c = true)
    (h : slice s p (eof - p) = us.flatMap charBytes) : Pieces s eof p (us.map .char) := by
  induction us generalizing p with
  | nil =>
      have hlen := slice_length s p (eof - p)
      rw [h] at hlen
      obtain rfl : p = eof := le_antisymm hp (Nat.sub_eq_zero_iff_le.mp hlen.symm)
      exact .nil
  | cons c us ih =>
      rw [List.flatMap_cons] at h
      obtain ⟨hbytes, hrest, hle⟩ := slice_eq_append h
      rw [charBytes_length] at hbytes hrest hle
      rw [Nat.sub_sub] at hrest
      exact .char ⟨hvalid c List.mem_cons_self, hbytes⟩ (by omega)
        (ih (by omega) (fun c h => hvalid c (List.mem_cons_of_mem _ h)) hrest)

end Encoded

/-! ## Decoding -/

section Array

variable {buf : Memory} {len maxlen repl : ℕ} {a : InvalidAction} {fresh : ℕ → ℕ} {l : List Piece}

theorem decodeCounts_fst (repl : ℕ) (hl : Pieces buf len 0 l) :
    (decodeCounts buf len maxlen a).1 = min maxlen (outputs a repl l).length := by
  rw [decodeCounts, decodeCountsFrom_fst repl hl (Nat.zero_le _), Nat.zero_add]

theorem decodeCounts_invalid (hl : Pieces buf len 0 l) :
    (decodeCounts buf len maxlen a).2.2 = 0 ↔ ∀ b, .byte b ∉ l.take (maxlen + 1) :=
  (decodeCountsFrom_invalid hl (Nat.zero_le _)).2

theorem decodeCounts_all (hl : Pieces buf len 0 l) (hstop : a ≠ .stop ∨ invalid l = 0)
    (hle : (outputs a repl l).length ≤ maxlen) :
    decodeCounts buf len maxlen a = ((outputs a repl l).length, len, invalid l) := by
  rw [decodeCounts, decodeCountsFrom_all repl hl hstop (by omega), Nat.zero_add, Nat.zero_add]

theorem decodeArr_of_lt (hl : Pieces buf len 0 l) (hlt : maxlen < l.length)
    (hchars : ∀ b, .byte b ∉ l.take (maxlen + 1)) :
    decodeArr fresh buf len maxlen a repl = none := by
  have hlong := le_length_fastdecodeFrom hl hlt hchars
  have hshort : (decodeCounts buf len maxlen a).1 ≤ maxlen := by
    rw [decodeCounts_fst repl hl]
    exact min_le_left _ _
  have hne : (fastdecode buf len).length ≠ (decodeCounts buf len maxlen a).1 := by
    rw [fastdecode]
    omega
  simp only [decodeArr]
  rw [if_pos ((decodeCounts_invalid hl).mpr hchars), if_neg hne]

theorem decodeArr_of_le (hl : Pieces buf len 0 l) (hle : (outputs a repl l).length ≤ maxlen)
    (hchars : invalid l = 0) :
    decodeArr fresh buf len maxlen a repl = some (outputs a repl l, len, 0) := by
  have hcounts := decodeCounts_all hl (.inr hchars) hle
  have hfast : fastdecode buf len = outputs a repl l := fastdecodeFrom_of_pieces a repl hl hchars
  rw [decodeArr, hcounts, hfast, hchars]
  simp

theorem decodeArr_of_invalid (hl : Pieces buf len 0 l)
    (hinvalid : ¬ ∀ b, .byte b ∉ l.take (maxlen + 1)) :
    decodeArr fresh buf len maxlen a repl =
      some ((List.range (decodeCounts buf len maxlen a).1).map fun k =>
        (decode buf len (decodeCounts buf len maxlen a).1 a repl).1.getD k (fresh k),
        (decodeCounts buf len maxlen a).2) := by
  have hne : (decodeCounts buf len maxlen a).2.2 ≠ 0 :=
    fun h => hinvalid ((decodeCounts_invalid hl).mp h)
  simp only [decodeArr]
  rw [if_neg hne]

/-- The array fails its assertion when there are more codepoints than it may have, and nothing
invalid before the first one too many. -/
theorem decodeArr_eq_none_iff (fresh : ℕ → ℕ) (buf : Memory) (len maxlen : ℕ) (a : InvalidAction)
    (repl : ℕ) :
    decodeArr fresh buf len maxlen a repl = none ↔
      ∃ us : List ℕ, maxlen < us.length ∧ (∀ c ∈ us, isvalid c = true) ∧
        us.flatMap charBytes <+: slice buf 0 len := by
  obtain ⟨l, hl⟩ := exists_pieces buf (Nat.zero_le len)
  have hstart {us : List ℕ} (hvalid : ∀ c ∈ us, isvalid c = true)
      (h : us.flatMap charBytes <+: slice buf 0 len) : us.map .char <+: l := by
    obtain ⟨t, ht⟩ := h
    exact hl.prefix_of_bytes hvalid ht.symm
  by_cases hchars : ∀ b, .byte b ∉ l.take (maxlen + 1)
  · rcases le_or_gt l.length maxlen with hle | hlt
    · have hnone : invalid l = 0 := by
        rw [List.take_of_length_le (by omega)] at hchars
        exact invalid_eq_zero.mpr hchars
      have hlength : (outputs a repl l).length ≤ maxlen := (length_outputs_le a repl l).trans hle
      rw [decodeArr_of_le hl hlength hnone]
      constructor
      · intro h
        cases h
      · rintro ⟨us, hlt, hvalid, h⟩
        have hle' := (hstart hvalid h).length_le
        rw [List.length_map] at hle'
        omega
    · rw [decodeArr_of_lt hl hlt hchars]
      obtain ⟨us, r, hlen, hvalid, -, -, hbytes⟩ := hl.exists_codepoints hlt hchars
      exact ⟨fun _ => ⟨us, by omega, hvalid, _, hbytes.symm⟩, fun _ => rfl⟩
  · rw [decodeArr_of_invalid hl hchars]
    constructor
    · intro h
      cases h
    · rintro ⟨us, hlt, hvalid, h⟩
      obtain ⟨l', rfl⟩ := hstart hvalid h
      refine absurd (fun b hb => ?_) hchars
      rw [List.take_append_of_le_length (by rw [List.length_map]; omega)] at hb
      exact absurd (List.mem_of_mem_take hb) (invalid_eq_zero.mp (invalid_map_char us) b)

/-- An array is what the loop over `next` writes into a buffer of the same length, where no
trailing byte comes after the end of the text. -/
theorem decodeArr_eq_decode (fresh : ℕ → ℕ) (maxlen : ℕ) (a : InvalidAction) (repl : ℕ)
    (hend : ¬ Trail2 (buf len).toNat) :
    ∃ l, Pieces buf len 0 l ∧
      (decode buf len maxlen a repl).1 = (outputs a repl l).take maxlen ∧
      (∀ out r, decodeArr fresh buf len maxlen a repl = some (out, r) →
        out = (decode buf len maxlen a repl).1) ∧
      (a ≠ .stop → (outputs a repl l).length ≤ maxlen →
        decode buf len maxlen a repl = (outputs a repl l, len, invalid l) ∧
          decodeArr fresh buf len maxlen a repl = some (outputs a repl l, len, invalid l)) := by
  obtain ⟨l, hl⟩ := exists_pieces buf (Nat.zero_le len)
  have hdecode (n : ℕ) : (decode buf len n a repl).1 = (outputs a repl l).take n :=
    decodeFrom_fst hl (.inl hend) (Nat.zero_le n)
  have hfilled : (List.range (decodeCounts buf len maxlen a).1).map (fun k =>
      (decode buf len (decodeCounts buf len maxlen a).1 a repl).1.getD k (fresh k)) =
      (outputs a repl l).take maxlen := by
    rw [decodeCounts_fst repl hl, hdecode]
    apply List.ext_getElem
    · simp
    · intro k hk hk'
      rw [List.length_map, List.length_range] at hk
      simp [List.getD_eq_getElem?_getD, List.getElem?_take, lt_min_iff.mp hk]
  refine ⟨l, hl, hdecode maxlen, ?_, ?_⟩
  · intro out r h
    rw [hdecode]
    by_cases hchars : ∀ b, .byte b ∉ l.take (maxlen + 1)
    · rcases le_or_gt l.length maxlen with hle | hlt
      · have hnone : invalid l = 0 := by
          rw [List.take_of_length_le (by omega)] at hchars
          exact invalid_eq_zero.mpr hchars
        have hlength := (length_outputs_le a repl l).trans hle
        rw [decodeArr_of_le hl hlength hnone, Option.some_inj, Prod.mk.injEq] at h
        rw [List.take_of_length_le hlength, h.1]
      · rw [decodeArr_of_lt hl hlt hchars] at h
        cases h
    · rw [decodeArr_of_invalid hl hchars, hfilled, Option.some_inj, Prod.mk.injEq] at h
      exact h.1.symm
  · intro hstop hlength
    have htake := List.take_of_length_le hlength
    refine ⟨Prod.ext ((hdecode maxlen).trans htake) ?_, ?_⟩
    · have hsnd : (decodeFrom buf len maxlen a repl 0 [] 0).2 = (len, 0 + invalid l) :=
        decodeFrom_snd hl (.inl hend) (.inl hstop) ((Nat.zero_add _).trans_le hlength)
      rwa [Nat.zero_add] at hsnd
    · by_cases hnone : invalid l = 0
      · rw [decodeArr_of_le hl hlength hnone, hnone]
      · have hcounts := decodeCounts_all hl (.inl hstop) hlength
        have hinvalid : ¬ ∀ b, .byte b ∉ l.take (maxlen + 1) := by
          rw [← decodeCounts_invalid (a := a) hl, hcounts]
          exact hnone
        rw [decodeArr_of_invalid hl hinvalid, hfilled, htake, hcounts]

theorem decodeArr_eq_decode_cut :
    ∃ l, Pieces (fun k => [0x61, 0xE2, 0x82].getD k 0) 3 0 l ∧
      (decode (fun k => [0x61, 0xE2, 0x82].getD k 0) 3 2 .replace 0xFFFD).1 =
        (outputs .replace 0xFFFD l).take 2 ∧
      (∀ out r, decodeArr (fun _ => 0) (fun k => [0x61, 0xE2, 0x82].getD k 0) 3 2 .replace 0xFFFD =
        some (out, r) →
          out = (decode (fun k => [0x61, 0xE2, 0x82].getD k 0) 3 2 .replace 0xFFFD).1) ∧
      (InvalidAction.replace ≠ .stop → (outputs .replace 0xFFFD l).length ≤ 2 →
        decode (fun k => [0x61, 0xE2, 0x82].getD k 0) 3 2 .replace 0xFFFD =
            (outputs .replace 0xFFFD l, 3, invalid l) ∧
          decodeArr (fun _ => 0) (fun k => [0x61, 0xE2, 0x82].getD k 0) 3 2 .replace 0xFFFD =
            some (outputs .replace 0xFFFD l, 3, invalid l)) :=
  decodeArr_eq_decode (fun _ => 0) 2 .replace 0xFFFD (by decide)

end Array

/-! ## Encoding -/

/-- The codepoints that are encoded. -/
def encoded (a : InvalidAction) (repl : ℕ) : List ℕ → List ℕ
  | [] => []
  | c :: us =>
      if isvalid c then c :: encoded a repl us
      else
        match a with
        | .replace => repl :: encoded a repl us
        | .skip => encoded a repl us
        | .keep => []
        | .stop => []

section Encode

variable {a : InvalidAction} {repl outlen : ℕ} {us : List ℕ}

theorem encoded_cons (c : ℕ) :
    encoded a repl (c :: us) =
      if isvalid c then c :: encoded a repl us
      else
        match a with
        | .replace => repl :: encoded a repl us
        | .skip => encoded a repl us
        | .keep => []
        | .stop => [] := rfl

theorem encodeCountsFrom_cons (c replLen i b q : ℕ) :
    encodeCountsFrom a replLen (c :: us) i b q =
      if isvalid c then encodeCountsFrom a replLen us (i + 1) (b + size c) q
      else
        match a with
        | .replace => encodeCountsFrom a replLen us (i + 1) (b + replLen) (q + 1)
        | .skip => encodeCountsFrom a replLen us (i + 1) b (q + 1)
        | .stop => some (b, i)
        | .keep => none := rfl

theorem invalid_iff {c : ℕ} : ((c ≥ 0xD800 ∧ c ≤ 0xDFFF) ∨ c > 0x10FFFF) ↔ ¬ isvalid c = true := by
  rw [isvalid_iff]
  omega

/-- One codepoint of the loop, with `put` for the write. -/
theorem encodeFrom_cons (c : ℕ) (out : List UInt8) :
    encodeFrom outlen a repl (c :: us) out =
      let put (d : ℕ) :=
        if out.length + ((charBytes d).length - 1) ≥ outlen then some out
        else encodeFrom outlen a repl us (out ++ charBytes d)
      if isvalid c then put c
      else
        match a with
        | .replace => put repl
        | .skip => encodeFrom outlen a repl us out
        | .stop => some out
        | .keep => none := by
  dsimp only
  rw [encodeFrom.eq_def]
  by_cases hc : isvalid c = true
  · rw [if_pos hc]
    exact if_neg fun h => invalid_iff.mp h hc
  · rw [if_neg hc]
    exact if_pos (invalid_iff.mpr hc)

theorem isvalid_of_mem_encoded (hrepl : a = .replace → isvalid repl = true) :
    ∀ c ∈ encoded a repl us, isvalid c = true := by
  induction us with
  | nil => exact fun c hc => absurd hc List.not_mem_nil
  | cons c us ih =>
      rw [encoded_cons]
      split
      · rename_i hc
        exact List.forall_mem_cons.mpr ⟨hc, ih⟩
      · cases a with
        | replace => exact List.forall_mem_cons.mpr ⟨hrepl rfl, ih⟩
        | skip => exact ih
        | keep => exact fun c hc => absurd hc List.not_mem_nil
        | stop => exact fun c hc => absurd hc List.not_mem_nil

theorem encodeCountsFrom_fst {replLen i b q : ℕ} {r : ℕ × ℕ}
    (hlen : a = .replace → replLen = size repl)
    (h : encodeCountsFrom a replLen us i b q = some r) :
    r.1 = b + ((encoded a repl us).flatMap charBytes).length := by
  induction us generalizing i b q with
  | nil =>
      rw [encodeCountsFrom, Option.some_inj] at h
      rw [← h, encoded, List.flatMap_nil, List.length_nil, Nat.add_zero]
  | cons c us ih =>
      rw [encodeCountsFrom_cons] at h
      rw [encoded_cons]
      split at h
      · rename_i hc
        rw [if_pos hc, List.flatMap_cons, List.length_append, charBytes_length, ih h,
          Nat.add_assoc]
      · rename_i hc
        rw [if_neg hc]
        cases a with
        | replace =>
            change r.1 = b + ((repl :: encoded .replace repl us).flatMap charBytes).length
            rw [List.flatMap_cons, List.length_append, charBytes_length, ih h, hlen rfl,
              Nat.add_assoc]
        | skip => exact ih h
        | keep => cases h
        | stop =>
            rw [← Option.some.inj h]
            rfl

/-- What counting the bytes asserts. -/
theorem encodeCounts_spec {r : ℕ × ℕ} (h : encodeCounts us a repl = some r) :
    a ≠ .keep ∧ (a = .replace → isvalid repl = true) ∧
      r.1 = ((encoded a repl us).flatMap charBytes).length := by
  rw [← Nat.zero_add (List.length _)]
  cases a with
  | replace =>
      rw [encodeCounts] at h
      split at h
      · rename_i hrepl
        exact ⟨by decide, fun _ => hrepl, encodeCountsFrom_fst (fun _ => rfl) h⟩
      · cases h
  | skip =>
      have hne : InvalidAction.skip ≠ .replace := by decide
      exact ⟨by decide, fun he => absurd he hne, encodeCountsFrom_fst (fun he => absurd he hne) h⟩
  | stop =>
      have hne : InvalidAction.stop ≠ .replace := by decide
      exact ⟨by decide, fun he => absurd he hne, encodeCountsFrom_fst (fun he => absurd he hne) h⟩
  | keep => cases h

/-- The codepoints that are encoded into a buffer: as many as there is room for. -/
structure Fits (outlen : ℕ) (cs : List ℕ) (out : List UInt8) (vs rest : List ℕ) : Prop where
  split : cs = vs ++ rest
  length : (out ++ vs.flatMap charBytes).length ≤ max outlen out.length
  full : ∀ c ∈ rest.head?, outlen < (out ++ vs.flatMap charBytes).length + size c

theorem Fits.cons {cs vs rest : List ℕ} {out : List UInt8} {c : ℕ}
    (h : Fits outlen cs (out ++ charBytes c) vs rest) (hlt : out.length + size c ≤ outlen) :
    Fits outlen (c :: cs) out (c :: vs) rest where
  split := by rw [h.split, List.cons_append]
  length := by
    have hlength := h.length
    simp only [List.flatMap_cons, List.length_append, charBytes_length] at hlength ⊢
    omega
  full d hd := by
    have hfull := h.full d hd
    simpa only [List.flatMap_cons, List.append_assoc] using hfull

theorem Fits.stop {cs : List ℕ} {out : List UInt8} {c : ℕ} (h : outlen < out.length + size c) :
    Fits outlen (c :: cs) out [] (c :: cs) where
  split := rfl
  length := by simp
  full d hd := by
    obtain rfl : c = d := Option.some.inj hd
    simpa using h

theorem Fits.nil {out : List UInt8} : Fits outlen [] out [] [] where
  split := rfl
  length := by simp
  full d hd := by cases hd

/-- The loop writes the codepoints that fit. -/
theorem encodeFrom_spec (outlen repl : ℕ) (ha : a ≠ .keep) (us : List ℕ) (out : List UInt8) :
    ∃ vs rest, Fits outlen (encoded a repl us) out vs rest ∧
      encodeFrom outlen a repl us out = some (out ++ vs.flatMap charBytes) := by
  induction us generalizing out with
  | nil => exact ⟨[], [], .nil, by rw [encodeFrom, List.flatMap_nil, List.append_nil]⟩
  | cons c us ih =>
      have hput (d : ℕ) : ∃ vs rest, Fits outlen (d :: encoded a repl us) out vs rest ∧
          (if out.length + ((charBytes d).length - 1) ≥ outlen then some out
            else encodeFrom outlen a repl us (out ++ charBytes d)) =
            some (out ++ vs.flatMap charBytes) := by
        have hpos := size_pos d
        rw [charBytes_length]
        split
        · exact ⟨[], _, .stop (by omega), by rw [List.flatMap_nil, List.append_nil]⟩
        · obtain ⟨vs, rest, hfits, heq⟩ := ih (out ++ charBytes d)
          refine ⟨d :: vs, rest, hfits.cons (by omega), ?_⟩
          rw [heq, List.flatMap_cons, List.append_assoc]
      rw [encodeFrom_cons, encoded_cons]
      by_cases hc : isvalid c = true
      · rw [if_pos hc]
        dsimp only
        rw [if_pos hc]
        exact hput c
      · rw [if_neg hc]
        dsimp only
        rw [if_neg hc]
        cases a with
        | replace => exact hput repl
        | skip => exact ih out
        | stop => exact ⟨[], [], .nil, by rw [List.flatMap_nil, List.append_nil]⟩
        | keep => exact absurd rfl ha

theorem encode_of_encodeFrom {us : List ℕ} {outlen repl : ℕ} {a : InvalidAction}
    {out : List UInt8} (hrepl : a = .replace → isvalid repl = true) (hle : out.length ≤ outlen)
    (h : encodeFrom outlen a repl us [] = some out) :
    encode us outlen a repl = some (out, out.length, 0) := by
  have hguard : ¬ (a = .replace ∧ ¬ isvalid repl = true) := fun h => h.2 (hrepl h.1)
  have hsub : outlen - (outlen - out.length) = out.length := by omega
  simp only [encode, if_neg hguard, h]
  exact congrArg (fun n => some (_, n, 0)) hsub

/-- The bytes that are written are those of the longest run of codepoints for which there is room,
all of them where there is room for what was counted, and each way to decode them gives the
codepoints back, whatever comes after them in memory. -/
theorem decode_encode {b q : ℕ} (h : encodeCounts us a repl = some (b, q)) (outlen : ℕ) :
    ∃ vs rest bytes, encoded a repl us = vs ++ rest ∧
      encode us outlen a repl = some (bytes, bytes.length, 0) ∧ bytes.length ≤ outlen ∧
      (∀ c ∈ rest.head?, outlen < bytes.length + size c) ∧ (b ≤ outlen → rest = []) ∧
      ∀ buf, slice buf 0 bytes.length = bytes → ∀ a' repl' n fresh, vs.length ≤ n →
        decodeCounts buf bytes.length n a' = (vs.length, bytes.length, 0) ∧
        decode buf bytes.length n a' repl' = (vs, bytes.length, 0) ∧
        decodeArr fresh buf bytes.length n a' repl' = some (vs, bytes.length, 0) := by
  obtain ⟨hkeep, hrepl, hb⟩ := encodeCounts_spec h
  obtain ⟨vs, rest, hfits, heq⟩ := encodeFrom_spec outlen repl hkeep us []
  have hlength := hfits.length
  have hfull := hfits.full
  rw [List.nil_append] at heq hlength hfull
  rw [List.length_nil, Nat.max_zero] at hlength
  refine ⟨vs, rest, vs.flatMap charBytes, hfits.split, ?_, hlength, hfull, ?_, ?_⟩
  · exact encode_of_encodeFrom hrepl hlength heq
  · intro hle
    cases rest with
    | nil => rfl
    | cons c rest =>
        have hover := hfull c rfl
        rw [hfits.split, List.flatMap_append, List.flatMap_cons, List.length_append,
          List.length_append, charBytes_length] at hb
        dsimp only at hb
        omega
  · intro buf hbuf a' repl' n fresh hn
    have hvalid : ∀ c ∈ vs, isvalid c = true := fun c hc =>
      isvalid_of_mem_encoded hrepl c (hfits.split ▸ List.mem_append_left rest hc)
    have hl := pieces_of_bytes (Nat.zero_le _) hvalid hbuf
    have hnone := invalid_map_char vs
    have hout := outputs_map_char a' repl' vs
    have hle : (outputs a' repl' (vs.map .char)).length ≤ n := by rwa [hout]
    refine ⟨?_, ?_, ?_⟩
    · rw [decodeCounts_all hl (.inr hnone) hle, hout, hnone]
    · refine Prod.ext ?_ ?_
      · rw [decode, decodeFrom_fst hl (.inr hnone) (Nat.zero_le _), hout]
        exact List.take_of_length_le hn
      · rw [decode, decodeFrom_snd hl (.inr hnone) (.inr hnone) ((Nat.zero_add _).trans_le hle),
          hnone]
    · rw [decodeArr_of_le hl hle hnone, hout]

theorem decode_encode_euro :
    ∃ vs rest bytes, encoded .replace 0xFFFD [0x20AC, 0xD800, 0x41] = vs ++ rest ∧
      encode [0x20AC, 0xD800, 0x41] 5 .replace 0xFFFD = some (bytes, bytes.length, 0) ∧
      bytes.length ≤ 5 ∧ (∀ c ∈ rest.head?, 5 < bytes.length + size c) ∧ (7 ≤ 5 → rest = []) ∧
      ∀ buf, slice buf 0 bytes.length = bytes → ∀ a' repl' n fresh, vs.length ≤ n →
        decodeCounts buf bytes.length n a' = (vs.length, bytes.length, 0) ∧
        decode buf bytes.length n a' repl' = (vs, bytes.length, 0) ∧
        decodeArr fresh buf bytes.length n a' repl' = some (vs, bytes.length, 0) :=
  decode_encode (q := 1) (by decide) 5

end Encode

/-! ## Well-formed characters -/

open LuaAttic.Utf8 (WellFormed wellFormedRows codePoint codePoint_three codePoint_four)

theorem codePoint_charBytes {c : ℕ} (hc : isvalid c = true) : codePoint (charBytes c) = c := by
  rw [isvalid_iff] at hc
  rw [charBytes_eq]
  split_ifs
  · exact toNat_of_eq rfl (by omega)
  · change (_ - _) * 64 + (_ - _) = c
    rw [toNat_of_eq rfl (by omega), toNat_of_eq rfl (by omega)]
    omega
  · rw [codePoint_three, toNat_of_eq rfl (by omega), toNat_of_eq rfl (by omega),
      toNat_of_eq rfl (by omega)]
    omega
  · rw [codePoint_four, toNat_of_eq rfl (by omega), toNat_of_eq rfl (by omega),
      toNat_of_eq rfl (by omega), toNat_of_eq rfl (by omega)]
    omega

/-- Well-formed bytes are those of their codepoint. -/
theorem charBytes_codePoint {p : List UInt8} (h : WellFormed p) :
    isvalid (codePoint p) = true ∧ charBytes (codePoint p) = p := by
  obtain ⟨row, hrow, hp⟩ := h
  have htwo {a b : UInt8} (ha : 0xC2 ≤ a.toNat ∧ a.toNat ≤ 0xDF)
      (hb : 0x80 ≤ b.toNat ∧ b.toNat ≤ 0xBF) :
      isvalid (codePoint [a, b]) = true ∧ charBytes (codePoint [a, b]) = [a, b] := by
    have hcode : codePoint [a, b] = (a.toNat - 0xC0) * 64 + (b.toNat - 0x80) := rfl
    rw [hcode, isvalid_iff, charBytes_eq, if_neg (by omega), if_pos (by omega)]
    exact ⟨by omega, congr (congrArg _ (eq_ofNat (by omega)).symm)
      (congrArg (fun x => [x]) (eq_ofNat (by omega)).symm)⟩
  have hthree {a b c : UInt8} (ha : 0xE0 ≤ a.toNat ∧ a.toNat ≤ 0xEF)
      (hb : 0x80 ≤ b.toNat ∧ b.toNat ≤ 0xBF) (hc : 0x80 ≤ c.toNat ∧ c.toNat ≤ 0xBF)
      (hlow : a.toNat = 0xE0 → 0xA0 ≤ b.toNat) (hhigh : a.toNat = 0xED → b.toNat ≤ 0x9F) :
      isvalid (codePoint [a, b, c]) = true ∧ charBytes (codePoint [a, b, c]) = [a, b, c] := by
    rw [codePoint_three, isvalid_iff, charBytes_eq, if_neg (by omega), if_neg (by omega),
      if_pos (by omega)]
    refine ⟨by omega, ?_⟩
    rw [← eq_ofNat (b := a) (by omega), ← eq_ofNat (b := b) (by omega),
      ← eq_ofNat (b := c) (by omega)]
  have hfour {a b c d : UInt8} (ha : 0xF0 ≤ a.toNat ∧ a.toNat ≤ 0xF4)
      (hb : 0x80 ≤ b.toNat ∧ b.toNat ≤ 0xBF) (hc : 0x80 ≤ c.toNat ∧ c.toNat ≤ 0xBF)
      (hd : 0x80 ≤ d.toNat ∧ d.toNat ≤ 0xBF)
      (hlow : a.toNat = 0xF0 → 0x90 ≤ b.toNat) (hhigh : a.toNat = 0xF4 → b.toNat ≤ 0x8F) :
      isvalid (codePoint [a, b, c, d]) = true ∧
        charBytes (codePoint [a, b, c, d]) = [a, b, c, d] := by
    rw [codePoint_four, isvalid_iff, charBytes_eq, if_neg (by omega), if_neg (by omega),
      if_neg (by omega)]
    refine ⟨by omega, ?_⟩
    rw [← eq_ofNat (b := a) (by omega), ← eq_ofNat (b := b) (by omega),
      ← eq_ofNat (b := c) (by omega), ← eq_ofNat (b := d) (by omega)]
  simp only [wellFormedRows, List.mem_cons, List.not_mem_nil, or_false] at hrow
  rcases hrow with rfl | rfl | rfl | rfl | rfl | rfl | rfl | rfl | rfl
  all_goals
    simp only [List.forall₂_cons_right_iff, List.forall₂_nil_right_iff,
      UInt8.le_iff_toNat_le, UInt8.reduceToNat] at hp
  · obtain ⟨a, _, ha, rfl, rfl⟩ := hp
    have hcode : codePoint [a] = a.toNat := rfl
    rw [hcode, isvalid_iff, charBytes_eq, if_pos ha.2]
    exact ⟨by omega, congrArg (fun x => [x]) (eq_ofNat rfl).symm⟩
  · obtain ⟨a, _, ha, ⟨b, _, hb, rfl, rfl⟩, rfl⟩ := hp
    exact htwo ha hb
  all_goals first
    | obtain ⟨a, _, ha, ⟨b, _, hb, ⟨c, _, hc, rfl, rfl⟩, rfl⟩, rfl⟩ := hp
      exact hthree (by omega) (by omega) hc (by omega) (by omega)
    | obtain ⟨a, _, ha, ⟨b, _, hb, ⟨c, _, hc, ⟨d, _, hd, rfl, rfl⟩, rfl⟩, rfl⟩, rfl⟩ := hp
      exact hfour (by omega) (by omega) hc hd (by omega) (by omega)

theorem wellFormed_of_row {p : List UInt8} (row : List (UInt8 × UInt8))
    (hrow : row ∈ wellFormedRows)
    (hp : List.Forall₂ (fun c range => range.1.toNat ≤ c.toNat ∧ c.toNat ≤ range.2.toNat) p row) :
    WellFormed p :=
  ⟨row, hrow, by simpa only [UInt8.le_iff_toNat_le] using hp⟩

/-- The bytes of a codepoint are well formed. -/
theorem wellFormed_charBytes {c : ℕ} (hc : isvalid c = true) : WellFormed (charBytes c) := by
  rw [isvalid_iff] at hc
  have hin {n : ℕ} (lo hi : UInt8) (h : lo.toNat ≤ n ∧ n ≤ hi.toNat) :
      lo.toNat ≤ (UInt8.ofNat n).toNat ∧ (UInt8.ofNat n).toNat ≤ hi.toNat := by
    have hlt := hi.toNat_lt
    rw [toNat_of_eq rfl (by omega)]
    exact h
  have htrail (n : ℕ) : (0x80 : UInt8).toNat ≤ (UInt8.ofNat (0x80 + n % 64)).toNat ∧
      (UInt8.ofNat (0x80 + n % 64)).toNat ≤ (0xBF : UInt8).toNat := by
    apply hin
    simp only [UInt8.reduceToNat]
    omega
  rw [charBytes_eq]
  split_ifs with h1 h2 h3
  · refine wellFormed_of_row [(0x00, 0x7F)] (by simp [wellFormedRows]) (.cons (hin _ _ ?_) .nil)
    simp only [UInt8.reduceToNat]
    omega
  · refine wellFormed_of_row [(0xC2, 0xDF), (0x80, 0xBF)] (by simp [wellFormedRows])
      (.cons (hin _ _ ?_) (.cons (htrail _) .nil))
    simp only [UInt8.reduceToNat]
    omega
  · have hrow (row : UInt8 × UInt8) (second : UInt8 × UInt8)
        (hmem : [row, second, (0x80, 0xBF)] ∈ wellFormedRows)
        (hfirst : row.1.toNat ≤ 0xE0 + c / 4096 ∧ 0xE0 + c / 4096 ≤ row.2.toNat)
        (hsecond : second.1.toNat ≤ 0x80 + c / 64 % 64 ∧ 0x80 + c / 64 % 64 ≤ second.2.toNat) :
        WellFormed [.ofNat (0xE0 + c / 4096), .ofNat (0x80 + c / 64 % 64),
          .ofNat (0x80 + c % 64)] :=
      wellFormed_of_row _ hmem
        (.cons (hin _ _ hfirst) (.cons (hin _ _ hsecond) (.cons (htrail c) .nil)))
    obtain h | h | h | h : c ≤ 0xFFF ∨ 0x1000 ≤ c ∧ c ≤ 0xCFFF ∨ 0xD000 ≤ c ∧ c ≤ 0xD7FF ∨
        0xE000 ≤ c := by omega
    · apply hrow (0xE0, 0xE0) (0xA0, 0xBF) (by simp [wellFormedRows]) <;>
        simp only [UInt8.reduceToNat] <;> omega
    · apply hrow (0xE1, 0xEC) (0x80, 0xBF) (by simp [wellFormedRows]) <;>
        simp only [UInt8.reduceToNat] <;> omega
    · apply hrow (0xED, 0xED) (0x80, 0x9F) (by simp [wellFormedRows]) <;>
        simp only [UInt8.reduceToNat] <;> omega
    · apply hrow (0xEE, 0xEF) (0x80, 0xBF) (by simp [wellFormedRows]) <;>
        simp only [UInt8.reduceToNat] <;> omega
  · have hrow (row : UInt8 × UInt8) (second : UInt8 × UInt8)
        (hmem : [row, second, (0x80, 0xBF), (0x80, 0xBF)] ∈ wellFormedRows)
        (hfirst : row.1.toNat ≤ 0xF0 + c / 262144 ∧ 0xF0 + c / 262144 ≤ row.2.toNat)
        (hsecond : second.1.toNat ≤ 0x80 + c / 4096 % 64 ∧
          0x80 + c / 4096 % 64 ≤ second.2.toNat) :
        WellFormed [.ofNat (0xF0 + c / 262144), .ofNat (0x80 + c / 4096 % 64),
          .ofNat (0x80 + c / 64 % 64), .ofNat (0x80 + c % 64)] :=
      wellFormed_of_row _ hmem (.cons (hin _ _ hfirst)
        (.cons (hin _ _ hsecond) (.cons (htrail (c / 64)) (.cons (htrail c) .nil))))
    obtain h | h | h : c ≤ 0x3FFFF ∨ 0x40000 ≤ c ∧ c ≤ 0xFFFFF ∨ 0x100000 ≤ c := by omega
    · apply hrow (0xF0, 0xF0) (0x90, 0xBF) (by simp [wellFormedRows]) <;>
        simp only [UInt8.reduceToNat] <;> omega
    · apply hrow (0xF1, 0xF3) (0x80, 0xBF) (by simp [wellFormedRows]) <;>
        simp only [UInt8.reduceToNat] <;> omega
    · apply hrow (0xF4, 0xF4) (0x80, 0x8F) (by simp [wellFormedRows]) <;>
        simp only [UInt8.reduceToNat] <;> omega

theorem encodeFrom_of_valid {us : List ℕ} {outlen repl : ℕ} {a : InvalidAction}
    {out : List UInt8} (hvalid : ∀ c ∈ us, isvalid c = true)
    (hle : (out ++ us.flatMap charBytes).length ≤ outlen) :
    encodeFrom outlen a repl us out = some (out ++ us.flatMap charBytes) := by
  induction us generalizing out with
  | nil => rw [encodeFrom, List.flatMap_nil, List.append_nil]
  | cons c us ih =>
      obtain ⟨hc, hus⟩ := List.forall_mem_cons.mp hvalid
      have hpos := size_pos c
      rw [List.flatMap_cons, ← List.append_assoc] at hle ⊢
      have hroom := (List.length_append ▸ hle : (out ++ charBytes c).length + _ ≤ outlen)
      rw [List.length_append, charBytes_length] at hroom
      rw [encodeFrom_cons]
      dsimp only
      rw [if_pos hc, charBytes_length, if_neg (by omega), ih hus hle]

theorem encode_of_valid {us : List ℕ} {outlen repl : ℕ} {a : InvalidAction}
    (hvalid : ∀ c ∈ us, isvalid c = true) (hrepl : a = .replace → isvalid repl = true)
    (hle : (us.flatMap charBytes).length ≤ outlen) :
    encode us outlen a repl =
      some (us.flatMap charBytes, (us.flatMap charBytes).length, 0) :=
  encode_of_encodeFrom hrepl hle (encodeFrom_of_valid hvalid hle)

/-- A text has nothing invalid when it is put together from well-formed characters.  Then decoding
without checks gives their codepoints, and encoding these gives the text back. -/
theorem decodeCounts_invalid_eq_zero_iff (s : Memory) (len k : ℕ) (a : InvalidAction) :
    (decodeCounts s len (len + k) a).2.2 = 0 ↔
      ∃ ps : List (List UInt8), (∀ p ∈ ps, WellFormed p) ∧ slice s 0 len = ps.flatten ∧
        fastdecode s len = ps.map codePoint ∧
        ∀ outlen a' repl, len ≤ outlen → (a' = .replace → isvalid repl = true) →
          encode (fastdecode s len) outlen a' repl = some (slice s 0 len, len, 0) := by
  have hwhole {l : List Piece} (hl : Pieces s len 0 l) :
      (decodeCounts s len (len + k) a).2.2 = 0 ↔ ∀ b, .byte b ∉ l := by
    have hlength : l.length ≤ len + k + 1 := hl.length_le.trans (by omega)
    rw [decodeCounts_invalid hl, List.take_of_length_le hlength]
  constructor
  · intro h
    obtain ⟨l, hl⟩ := exists_pieces s (Nat.zero_le len)
    obtain ⟨us, hvalid, rfl, hbytes⟩ := hl.exists_eq_map_char ((hwhole hl).mp h)
    rw [Nat.sub_zero] at hbytes
    have hfast : fastdecode s len = us := by
      rw [fastdecode, fastdecodeFrom_of_pieces .skip 0 hl (invalid_map_char us), outputs_map_char]
    have hlen : (us.flatMap charBytes).length = len := by rw [← hbytes, slice_length]
    refine ⟨us.map charBytes, ?_, ?_, ?_, ?_⟩
    · intro p hp
      obtain ⟨c, hc, rfl⟩ := List.mem_map.mp hp
      exact wellFormed_charBytes (hvalid c hc)
    · rw [hbytes, List.flatMap]
    · rw [hfast, List.map_map]
      exact ((List.map_congr_left fun c hc => codePoint_charBytes (hvalid c hc)).trans
        (List.map_id us)).symm
    · intro outlen a' repl hle hrepl
      have henc := encode_of_valid hvalid hrepl (hlen.trans_le hle)
      rw [hlen] at henc
      rw [hfast, hbytes, henc]
  · rintro ⟨ps, hps, hbytes, -⟩
    have hmap : (ps.map codePoint).flatMap charBytes = ps.flatten := by
      rw [List.flatMap_map, List.flatMap]
      exact congrArg _ ((List.map_congr_left fun p hp =>
        (charBytes_codePoint (hps p hp)).2).trans (List.map_id ps))
    have hvalid : ∀ c ∈ ps.map codePoint, isvalid c = true := by
      intro c hc
      obtain ⟨p, hp, rfl⟩ := List.mem_map.mp hc
      exact (charBytes_codePoint (hps p hp)).1
    have hl := pieces_of_bytes (Nat.zero_le len) hvalid (hbytes.trans hmap.symm)
    exact (hwhole hl).mpr (invalid_eq_zero.mp (invalid_map_char _))

end LuaAttic.Terra.Utf8lib
