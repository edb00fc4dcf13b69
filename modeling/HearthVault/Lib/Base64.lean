/-
HearthVault.Lib.Base64 — base64 with the standard alphabet and padding.

`encode` takes three bytes to four characters; `decode` accepts exactly the
canonical encodings: full groups of four, padding where it belongs and only
there, and no bits left over in the last character. Decoding inverts encoding
(`decode_encode`), and an encoding has no blank in it
(`isWhitespace_of_mem_encode`).
-/
import HearthVault.Lib.Text

namespace HearthVault.Base64

/-! ## Characters -/

def alphabet : Str :=
  "ABCDEFGHIJKLMNOPQRSTUVWXYZabcdefghijklmnopqrstuvwxyz0123456789+/".toList

/-- The character of six bits. -/
def symbol (n : Nat) : Char :=
  alphabet.getD n '='

/-- The six bits of a character. -/
def digit (c : Char) : Option Nat :=
  alphabet.idxOf? c

theorem digit_symbol {n : Nat} (h : n < 64) : digit (symbol n) = some n := by
  have hall : ∀ i : Fin 64, digit (symbol i) = some i.val := by decide +kernel
  exact hall ⟨n, h⟩

theorem digit_pad : digit '=' = none := by
  decide

theorem symbol_ne_pad {n : Nat} (h : n < 64) : symbol n ≠ '=' := by
  intro heq
  have hdigit := digit_symbol h
  rw [heq, digit_pad] at hdigit
  cases hdigit

theorem isWhitespace_symbol (n : Nat) : Str.isWhitespace (symbol n) = false := by
  have hall : ('=' :: alphabet).all (fun c => Str.isWhitespace c = false) = true := by
    decide
  refine of_decide_eq_true (List.all_eq_true.mp hall _ ?_)
  unfold symbol
  rw [List.getD_eq_getElem?_getD]
  cases hn : alphabet[n]? with
  | none => simp
  | some c => exact List.mem_cons_of_mem _ (List.mem_of_getElem? hn)

/-! ## Encoding and decoding -/

def encode : List UInt8 → Str
  | [] => []
  | [a] => [symbol (a.toNat / 4), symbol (a.toNat % 4 * 16), '=', '=']
  | [a, b] =>
    [symbol (a.toNat / 4), symbol (a.toNat % 4 * 16 + b.toNat / 16), symbol (b.toNat % 16 * 4), '=']
  | a :: b :: c :: rest =>
    symbol (a.toNat / 4) :: symbol (a.toNat % 4 * 16 + b.toNat / 16) ::
      symbol (b.toNat % 16 * 4 + c.toNat / 64) :: symbol (c.toNat % 64) :: encode rest

def decode : Str → Option (List UInt8)
  | [] => some []
  | c₀ :: c₁ :: c₂ :: c₃ :: rest =>
    if rest = [] ∧ c₃ = '=' then
      if c₂ = '=' then do
        let i ← digit c₀
        let j ← digit c₁
        if j % 16 = 0 then some [UInt8.ofNat (i * 4 + j / 16)] else none
      else do
        let i ← digit c₀
        let j ← digit c₁
        let k ← digit c₂
        if k % 4 = 0 then
          some [UInt8.ofNat (i * 4 + j / 16), UInt8.ofNat (j % 16 * 16 + k / 4)]
        else none
    else do
      let i ← digit c₀
      let j ← digit c₁
      let k ← digit c₂
      let l ← digit c₃
      let tail ← decode rest
      some (UInt8.ofNat (i * 4 + j / 16) :: UInt8.ofNat (j % 16 * 16 + k / 4) ::
        UInt8.ofNat (k % 4 * 64 + l) :: tail)
  | _ => none

example : encode (Str.utf8 "hv1".toList) = "aHYx".toList := by decide

example : decode "aHY=".toList = some (Str.utf8 "hv".toList) ∧ decode "aHZ=".toList = none ∧
    decode "aHY".toList = none := by decide

/-! ## Round trip -/

/-- The bits of a byte, taken apart and put together again. -/
theorem ofNat_bits {n : Nat} {a : UInt8} (h : n = a.toNat) : UInt8.ofNat n = a := by
  rw [h, UInt8.ofNat_toNat]

theorem decode_encode (bytes : List UInt8) : decode (encode bytes) = some bytes := by
  induction bytes using encode.induct with
  | case1 => rfl
  | case2 a =>
    have ha : a.toNat < 256 := a.toNat_lt
    have hi := digit_symbol (n := a.toNat / 4) (by omega)
    have hj := digit_symbol (n := a.toNat % 4 * 16) (by omega)
    have hbits : a.toNat % 4 * 16 % 16 = 0 := by omega
    have hbyte : UInt8.ofNat (a.toNat / 4 * 4 + a.toNat % 4 * 16 / 16) = a := ofNat_bits (by omega)
    simp only [encode, decode, and_self, if_true, hi, hj, Option.bind_eq_bind, Option.bind_some,
      hbits, hbyte]
  | case3 a b =>
    have ha : a.toNat < 256 := a.toNat_lt
    have hb : b.toNat < 256 := b.toNat_lt
    have hi := digit_symbol (n := a.toNat / 4) (by omega)
    have hj := digit_symbol (n := a.toNat % 4 * 16 + b.toNat / 16) (by omega)
    have hk := digit_symbol (n := b.toNat % 16 * 4) (by omega)
    have hpad := symbol_ne_pad (n := b.toNat % 16 * 4) (by omega)
    have hbits : b.toNat % 16 * 4 % 4 = 0 := by omega
    have hbyte₁ : UInt8.ofNat (a.toNat / 4 * 4 + (a.toNat % 4 * 16 + b.toNat / 16) / 16) = a :=
      ofNat_bits (by omega)
    have hbyte₂ : UInt8.ofNat ((a.toNat % 4 * 16 + b.toNat / 16) % 16 * 16 +
        b.toNat % 16 * 4 / 4) = b :=
      ofNat_bits (by omega)
    simp only [encode, decode, and_self, if_true, hpad, if_false, hi, hj, hk, Option.bind_eq_bind,
      Option.bind_some, hbits, hbyte₁, hbyte₂]
  | case4 a b c rest ih =>
    have ha : a.toNat < 256 := a.toNat_lt
    have hb : b.toNat < 256 := b.toNat_lt
    have hc : c.toNat < 256 := c.toNat_lt
    have hi := digit_symbol (n := a.toNat / 4) (by omega)
    have hj := digit_symbol (n := a.toNat % 4 * 16 + b.toNat / 16) (by omega)
    have hk := digit_symbol (n := b.toNat % 16 * 4 + c.toNat / 64) (by omega)
    have hl := digit_symbol (n := c.toNat % 64) (by omega)
    have hpad := symbol_ne_pad (n := c.toNat % 64) (by omega)
    have hbyte₁ : UInt8.ofNat (a.toNat / 4 * 4 + (a.toNat % 4 * 16 + b.toNat / 16) / 16) = a :=
      ofNat_bits (by omega)
    have hbyte₂ : UInt8.ofNat ((a.toNat % 4 * 16 + b.toNat / 16) % 16 * 16 +
        (b.toNat % 16 * 4 + c.toNat / 64) / 4) = b :=
      ofNat_bits (by omega)
    have hbyte₃ : UInt8.ofNat ((b.toNat % 16 * 4 + c.toNat / 64) % 4 * 64 + c.toNat % 64) = c :=
      ofNat_bits (by omega)
    rw [encode, decode, if_neg fun h => hpad h.2]
    simp only [hi, hj, hk, hl, ih, Option.bind_eq_bind, Option.bind_some, hbyte₁, hbyte₂, hbyte₃]

theorem isWhitespace_of_mem_encode {bytes : List UInt8} {c : Char} (h : c ∈ encode bytes) :
    Str.isWhitespace c = false := by
  have hpad : Str.isWhitespace '=' = false := by decide
  induction bytes using encode.induct with
  | case1 => simp [encode] at h
  | case2 a =>
    simp only [encode, List.mem_cons, List.not_mem_nil, or_false] at h
    rcases h with rfl | rfl | rfl | rfl <;> first | exact isWhitespace_symbol _ | exact hpad
  | case3 a b =>
    simp only [encode, List.mem_cons, List.not_mem_nil, or_false] at h
    rcases h with rfl | rfl | rfl | rfl <;> first | exact isWhitespace_symbol _ | exact hpad
  | case4 a b c rest ih =>
    simp only [encode, List.mem_cons] at h
    rcases h with rfl | rfl | rfl | rfl | h
    · exact isWhitespace_symbol _
    · exact isWhitespace_symbol _
    · exact isWhitespace_symbol _
    · exact isWhitespace_symbol _
    · exact ih h

theorem encode_ne_nil {bytes : List UInt8} (h : bytes ≠ []) : encode bytes ≠ [] := by
  intro hnil
  have hdecode := decode_encode bytes
  rw [hnil] at hdecode
  cases hdecode
  exact h rfl

end HearthVault.Base64
