/-
HearthVault.Hsm.OsKeyring — the OS keyring backend and `seal`.

The backend keeps the secret, as hexadecimal text, under a service and a label
of the keyring of the user, and answers the label as the blob. `cmdSeal` is
`seal` with this backend, on the disk and the keyring together; `autoUnseal`
is what opening a vault reads back.
-/
import HearthVault.Store.VaultStore

namespace HearthVault

open Files

/-! ## Hexadecimal text -/

/-- `format!("{b:02x}")` of every byte. -/
def hexEncode (bytes : List UInt8) : Str :=
  bytes.flatMap fun b => [Nat.digitChar (b.toNat / 16), Nat.digitChar (b.toNat % 16)]

/-- The value of a hexadecimal digit. -/
def hexDigit (c : Char) : Option Nat :=
  if '0' ≤ c ∧ c ≤ '9' then some (c.toNat - '0'.toNat)
  else if 'a' ≤ c ∧ c ≤ 'f' then some (c.toNat - 'a'.toNat + 10)
  else if 'A' ≤ c ∧ c ≤ 'F' then some (c.toNat - 'A'.toNat + 10)
  else none

/-- `u8::from_str_radix` to base 16, of a text of two bytes. A sign is read. -/
def fromStrRadix16 : Str → Option UInt8
  | ['+', c] => (hexDigit c).map UInt8.ofNat
  | [c, d] => do
    let high ← hexDigit c
    let low ← hexDigit d
    some (UInt8.ofNat (16 * high + low))
  | _ => none

/-- The loop of `hex_decode` over the pairs that are left. -/
def hexDecodePairs : Nat → Str → Result (List UInt8)
  | 0, _ => .ok []
  | count + 1, s =>
    match Str.splitAtByte 2 s with
    | none => .error (.panic "byte index is not a char boundary")
    | some (pair, rest) =>
      match fromStrRadix16 pair with
      | none => bail ""
      | some b => do
        let bytes ← hexDecodePairs count rest
        .ok (b :: bytes)

/-- `hex_decode`. -/
def hexDecode (hex : Str) : Result (List UInt8) :=
  if (Str.utf8 hex).length % 2 ≠ 0 then bail ""
  else hexDecodePairs ((Str.utf8 hex).length / 2) hex

example : hexDecode "00ff".toList = .ok [0, 255] := by decide

theorem hexDigit_digitChar {n : Nat} (h : n < 16) : hexDigit (Nat.digitChar n) = some n := by
  have hall : ∀ i : Fin 16, hexDigit (Nat.digitChar i) = some i.val := by decide
  exact hall ⟨n, h⟩

theorem utf8Size_digitChar {n : Nat} (h : n < 16) : (Nat.digitChar n).utf8Size = 1 := by
  have hall : ∀ i : Fin 16, (Nat.digitChar i).utf8Size = 1 := by decide
  exact hall ⟨n, h⟩

theorem digitChar_ne_plus {n : Nat} (h : n < 16) : Nat.digitChar n ≠ '+' := by
  have hall : ∀ i : Fin 16, Nat.digitChar i ≠ '+' := by decide
  exact hall ⟨n, h⟩

theorem digits_lt (b : UInt8) : b.toNat / 16 < 16 ∧ b.toNat % 16 < 16 := by
  have := b.toNat_lt
  omega

theorem fromStrRadix16_digits (b : UInt8) :
    fromStrRadix16 [Nat.digitChar (b.toNat / 16), Nat.digitChar (b.toNat % 16)] = some b := by
  obtain ⟨hhigh, hlow⟩ := digits_lt b
  unfold fromStrRadix16
  split
  · rename_i heq
    exact absurd (List.cons.inj heq).1 (digitChar_ne_plus hhigh)
  · rename_i heq
    cases heq
    rw [hexDigit_digitChar hhigh, hexDigit_digitChar hlow, Option.bind_eq_bind, Option.bind_some,
      Option.bind_some, Nat.div_add_mod, UInt8.ofNat_toNat]
  · rename_i _ hpair
    exact (hpair _ _ rfl).elim

/-- Two characters of one byte each. -/
theorem splitAtByte_two {c d : Char} (hc : c.utf8Size = 1) (hd : d.utf8Size = 1) (s : Str) :
    Str.splitAtByte 2 (c :: d :: s) = some ([c, d], s) := by
  simp [Str.splitAtByte, hc, hd]

theorem length_utf8_hexEncode (bytes : List UInt8) :
    (Str.utf8 (hexEncode bytes)).length = 2 * bytes.length := by
  induction bytes with
  | nil => rfl
  | cons b bytes ih =>
    obtain ⟨hhigh, hlow⟩ := digits_lt b
    simp only [Str.utf8, hexEncode, List.flatMap_cons, List.length_append, List.cons_append,
      List.nil_append, String.length_utf8EncodeChar, utf8Size_digitChar hhigh,
      utf8Size_digitChar hlow, List.length_cons] at ih ⊢
    omega

theorem hexDecode_hexEncode (bytes : List UInt8) : hexDecode (hexEncode bytes) = .ok bytes := by
  rw [hexDecode, length_utf8_hexEncode, if_neg (by omega), Nat.mul_div_cancel_left _ (by decide)]
  induction bytes with
  | nil => rfl
  | cons b bytes ih =>
    obtain ⟨hhigh, hlow⟩ := digits_lt b
    have hsplit : Str.splitAtByte 2 (hexEncode (b :: bytes)) =
        some ([Nat.digitChar (b.toNat / 16), Nat.digitChar (b.toNat % 16)], hexEncode bytes) :=
      splitAtByte_two (utf8Size_digitChar hhigh) (utf8Size_digitChar hlow) _
    rw [List.length_cons, hexDecodePairs, hsplit]
    dsimp only
    rw [fromStrRadix16_digits]
    dsimp only
    rw [ih]
    rfl

/-! ## The keyring -/

/-- The credential store of the platform: a text under a service and a label. -/
abbrev Keyring := Str × Str → Option Str

/-- `SERVICE_NAME`. -/
def serviceName : Str :=
  "hearth-vault".toList

/-- `OsKeyringBackend::seal`: the blob and the keyring after it. -/
def osKeyringSeal (keyring : Keyring) (plaintext : List UInt8) (label : Str) :
    List UInt8 × Keyring :=
  (Str.utf8 label, Function.update keyring (serviceName, label) (some (hexEncode plaintext)))

/-- `OsKeyringBackend::unseal`. -/
def osKeyringUnseal (keyring : Keyring) (blob : List UInt8) (label : Str) : Result (List UInt8) :=
  let storedLabel := (Str.fromUtf8 blob).getD label
  match keyring (serviceName, storedLabel) with
  | none => bail "keyring read failed: no entry"
  | some hex => mapErr (fun _ => "invalid hex in keyring") (hexDecode hex)

/-- What is sealed is unsealed, whatever label the caller gives for it. -/
theorem osKeyringUnseal_eq {keyring : Keyring} {plaintext : List UInt8} {label : Str}
    (h : keyring (serviceName, label) = some (hexEncode plaintext)) (label' : Str) :
    osKeyringUnseal keyring (Str.utf8 label) label' = .ok plaintext := by
  rw [osKeyringUnseal, Str.fromUtf8_utf8]
  dsimp only [Option.getD_some]
  rw [h]
  dsimp only
  rw [hexDecode_hexEncode]
  rfl

/-! ## seal -/

/-- `sealed_passphrase_path`. -/
def sealedPassphrasePath (path : Path) : Path :=
  path.withFileName "vault-passphrase.sealed".toList

theorem sealedPassphrasePath_ne_tmpPath (path path' : Path) (pid : Nat) :
    sealedPassphrasePath path ≠ tmpPath path' pid := by
  intro h
  have hhead := congrArg (fun p => p.name.head?) h
  simp [sealedPassphrasePath, tmpPath, Path.withFileName] at hhead

/-- The label of a sealed passphrase. -/
def sealLabel : Str :=
  "hearth-vault".toList

/-- A file of the bytes of a blob. -/
def Contents.ofBlob (blob : List UInt8) : Contents :=
  match Str.fromUtf8 blob with
  | some s => .text s
  | none => .binary blob

/-- A disk and the keyring of its user. -/
structure Host where
  disk : Disk
  keyring : Keyring

/-- `cmd_seal` with the OS keyring, for the passphrase that is typed. -/
def cmdSeal (m : Machine) (path : Path) (passphrase : Str) (host : Host) : Result Unit × Host :=
  match (VaultStore.openAtWithPassphrase path passphrase).run m host.disk with
  | (.error e, disk) => (.error e, { host with disk })
  | (.ok _, disk) =>
    let (blob, keyring) := osKeyringSeal host.keyring (Str.utf8 passphrase) sealLabel
    let (result, disk) :=
      (writePrivate (sealedPassphrasePath path) (Contents.ofBlob blob)).run m disk
    (result, ⟨disk, keyring⟩)

/-- The passphrase that `open_vault` unseals with the OS keyring. -/
def autoUnseal [JsonText] (host : Host) (path : Path) : Result Str :=
  match host.disk.fs (sealedPassphrasePath path) with
  | none => bail "no sealed passphrase"
  | some contents => do
    let bytes ← osKeyringUnseal host.keyring contents.bytes sealLabel
    match Str.fromUtf8 bytes with
    | some passphrase => .ok passphrase
    | none => bail "the unsealed bytes aren't valid UTF-8"

end HearthVault
