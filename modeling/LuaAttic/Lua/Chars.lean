import LuaAttic.Lua.Basic

/-!
# Bytes as characters

Literals, the classes of bytes that patterns are made of, and numbers written
in hexadecimal.  Letters are those of the C locale.
-/

namespace LuaAttic.Lua

/-- The bytes of a literal without characters past `\xff`. -/
def lit (s : String) : Bytes := s.toList.map Char.toUInt8

/-- What is checked of the 256 bytes, digit by digit, holds of every byte. -/
theorem forall_byte {P : UInt8 → Prop}
    (h : ∀ hi < 16, ∀ lo < 16, P (UInt8.ofNat (16 * hi + lo))) (b : UInt8) : P b := by
  have hb := b.toNat_lt
  have hP := h (b.toNat / 16) (by omega) (b.toNat % 16) (by omega)
  rwa [Nat.div_add_mod, UInt8.ofNat_toNat] at hP

/-! ## Classes of bytes -/

/-- A set of bytes, as it stands for a single character in a pattern. -/
abbrev CharClass := UInt8 → Bool

/-- A literal character. -/
def chr (c : Char) : CharClass := fun b => b == c.toUInt8

/-- `.` -/
def anyChar : CharClass := fun _ => true

/-- `[abc]` -/
def oneOf (s : String) : CharClass := fun b => (lit s).contains b

/-- `[^abc]` -/
def noneOf (s : String) : CharClass := fun b => !(lit s).contains b

/-- `%d` -/
def isDigit : CharClass := fun b => 0x30 ≤ b && b ≤ 0x39

/-- `%a` -/
def isAlpha : CharClass := fun b =>
  (0x41 ≤ b && b ≤ 0x5A) || (0x61 ≤ b && b ≤ 0x7A)

/-- `%w` -/
def isAlnum : CharClass := fun b => isAlpha b || isDigit b

/-- `%s` -/
def isSpace : CharClass := fun b => b == 0x20 || (0x09 ≤ b && b ≤ 0x0D)

/-- `%x` -/
def isXDigit : CharClass := fun b =>
  isDigit b || (0x41 ≤ b && b ≤ 0x46) || (0x61 ≤ b && b ≤ 0x66)

/-- `string.lower` of one character. -/
def lowerChar (b : UInt8) : UInt8 :=
  if 0x41 ≤ b ∧ b ≤ 0x5A then b + 0x20 else b

/-- `s:lower()` -/
def lower (s : Bytes) : Bytes := s.map lowerChar

@[simp] theorem chr_apply (c : Char) (b : UInt8) :
    chr c b = (b == c.toUInt8) := rfl

@[simp] theorem anyChar_apply (b : UInt8) : anyChar b = true := rfl

/-! ## Hexadecimal numbers -/

/-- A digit below sixteen, in lower case. -/
def hexDigit (n : ℕ) : UInt8 :=
  if n < 10 then UInt8.ofNat (0x30 + n) else UInt8.ofNat (0x57 + n)

/-- The value of a hexadecimal digit of either case. -/
def hexValue (b : UInt8) : ℕ :=
  if isDigit b then b.toNat - 0x30
  else if 0x61 ≤ b then b.toNat - 0x57
  else b.toNat - 0x37

theorem isXDigit_hexDigit : ∀ n < 16, isXDigit (hexDigit n) = true := by
  decide

theorem hexValue_hexDigit : ∀ n < 16, hexValue (hexDigit n) = n := by
  decide

/-- `('%02x'):format(b)` -/
def hexByte (b : UInt8) : Bytes :=
  [hexDigit (b.toNat / 16), hexDigit (b.toNat % 16)]

/-- `('%x'):format(n)` -/
def formatHex (n : ℕ) : Bytes :=
  if n < 16 then [hexDigit n]
  else formatHex (n / 16) ++ [hexDigit (n % 16)]

/-- The number that hexadecimal digits stand for. -/
def hexNumber (digits : Bytes) : ℕ :=
  digits.foldl (fun n b => 16 * n + hexValue b) 0

/-- `tonumber(s, 16)`: in another base than ten only unsigned integers are
accepted, with spaces around them. -/
def tonumber16 (s : Bytes) : Option ℕ :=
  let digits := ((s.dropWhile isSpace).reverse.dropWhile isSpace).reverse
  if digits ≠ [] ∧ digits.all isXDigit then some (hexNumber digits) else none

theorem mem_formatHex {n : ℕ} {b : UInt8} (h : b ∈ formatHex n) :
    ∃ d < 16, b = hexDigit d := by
  induction n using formatHex.induct with
  | case1 n hlt =>
      rw [formatHex, if_pos hlt] at h
      exact ⟨n, hlt, List.mem_singleton.mp h⟩
  | case2 n hge ih =>
      rw [formatHex, if_neg hge] at h
      rcases List.mem_append.mp h with hinit | hlast
      · exact ih hinit
      · exact ⟨n % 16, Nat.mod_lt n (by decide), List.mem_singleton.mp hlast⟩

theorem formatHex_ne_nil (n : ℕ) : formatHex n ≠ [] := by
  rw [formatHex]
  split_ifs <;> simp

theorem hexNumber_formatHex (n : ℕ) : hexNumber (formatHex n) = n := by
  induction n using formatHex.induct with
  | case1 n hlt =>
      rw [formatHex, if_pos hlt]
      simpa [hexNumber] using hexValue_hexDigit n hlt
  | case2 n hge ih =>
      rw [formatHex, if_neg hge, hexNumber, List.foldl_append]
      change 16 * hexNumber (formatHex (n / 16)) + hexValue (hexDigit (n % 16))
        = n
      rw [ih, hexValue_hexDigit _ (Nat.mod_lt n (by decide))]
      exact Nat.div_add_mod n 16

theorem isSpace_of_isXDigit (b : UInt8) :
    isXDigit b = true → isSpace b = false := by
  revert b
  exact forall_byte (by decide)

theorem dropWhile_isSpace_of_xdigits {s : Bytes}
    (h : ∀ b ∈ s, isXDigit b = true) : s.dropWhile isSpace = s := by
  cases s with
  | nil => rfl
  | cons b s =>
      rw [List.dropWhile_cons_of_neg]
      simp [isSpace_of_isXDigit b (h b List.mem_cons_self)]

/-- A number is read as it was written. -/
theorem tonumber16_formatHex (n : ℕ) :
    tonumber16 (formatHex n) = some n := by
  have hdigits : ∀ b ∈ formatHex n, isXDigit b = true := by
    intro b hb
    rcases mem_formatHex hb with ⟨d, hd, rfl⟩
    exact isXDigit_hexDigit d hd
  have hback : ∀ b ∈ (formatHex n).reverse, isXDigit b = true := by
    intro b hb
    exact hdigits b (List.mem_reverse.mp hb)
  simp only [tonumber16, dropWhile_isSpace_of_xdigits hdigits,
    dropWhile_isSpace_of_xdigits hback, List.reverse_reverse]
  rw [if_pos ⟨formatHex_ne_nil n, List.all_eq_true.mpr hdigits⟩,
    hexNumber_formatHex]

end LuaAttic.Lua
