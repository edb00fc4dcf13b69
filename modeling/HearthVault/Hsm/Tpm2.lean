/-
HearthVault.Hsm.Tpm2 — the blob of the TPM2 backend.

A blob is two byte strings, each with its length before it. The recogniser
`looksLikeTpm2Blob` has no tag to go by, so the shape has to tell: it accepts
the frames of two strings that are not empty, and nothing else
(`looksLikeTpm2Blob_iff`). The decoder is laxer, about empty strings and about
what follows the frame, and reads within its input at every length
(`splitBlob_answers`). What the encoder writes both take for the same pair.
-/
import HearthVault.Lib.Files
import HearthVault.Lib.LittleEndian

namespace HearthVault

open Files LittleEndian

/-! ## The recogniser -/

/-- The string behind a length, and the bytes after it; no string is empty. -/
def takeLen (b : List UInt8) : Option (Nat × List UInt8) :=
  if b.length < 4 then none
  else
    let n := fromLeBytes (b.take 4)
    let rest := b.drop 4
    if 0 < n ∧ n ≤ rest.length then some (n, rest.drop n) else none

/-- `looks_like_tpm2_blob`. -/
def looksLikeTpm2Blob (blob : List UInt8) : Bool :=
  match takeLen blob with
  | none => false
  | some (_, rest) =>
    match takeLen rest with
    | some (_, tail) => tail.isEmpty
    | none => false

/-! ## Encoder and decoder -/

/-- The objects of the TPM library and their marshalling. -/
class Tss where
  Public : Type
  Private : Type
  marshall : Public → Except String (List UInt8)
  unmarshall : List UInt8 → Except String Public
  toVec : Private → List UInt8
  ofVec : List UInt8 → Except String Private

/-- What was marshalled can be unmarshalled. -/
structure Tss.RoundTrips [Tss] : Prop where
  pub : ∀ (p : Tss.Public) (bytes : List UInt8),
    Tss.marshall p = .ok bytes → Tss.unmarshall bytes = .ok p
  priv : ∀ p : Tss.Private, Tss.ofVec (Tss.toVec p) = .ok p

/-- `HsmError::SealFailed` and `HsmError::UnsealFailed`, as they are shown. -/
def sealFailed (e : String) : String :=
  "seal failed: " ++ e

def unsealFailed (e : String) : String :=
  "unseal failed — wrong backend, wrong machine, or PCR mismatch: " ++ e

/-- Two strings, each behind its length as a `u32`. -/
def blobFrame (pubBytes privBytes : List UInt8) : List UInt8 :=
  toLeBytes 4 pubBytes.length ++ pubBytes ++ toLeBytes 4 privBytes.length ++ privBytes

/-- `serialise_blob`. -/
def serialiseBlob [Tss] (pub : Tss.Public) (priv : Tss.Private) : Result (List UInt8) :=
  match Tss.marshall pub with
  | .error e => bail (sealFailed ("marshall public: " ++ e))
  | .ok pubBytes => .ok (blobFrame pubBytes (Tss.toVec priv))

/-- `&data[start..stop]`. -/
def slice (data : List UInt8) (start stop : Nat) : Result (List UInt8) :=
  if start ≤ stop ∧ stop ≤ data.length then .ok ((data.drop start).take (stop - start))
  else .error (.panic "range end index out of range for slice")

/-- `u32::from_le_bytes(bytes.try_into().unwrap())`. -/
def readU32 (bytes : List UInt8) : Result Nat :=
  if bytes.length = 4 then .ok (fromLeBytes bytes)
  else .error (.panic "called `Result::unwrap()` on an `Err` value")

/-- `deserialise_blob` up to the two strings. -/
def splitBlob (data : List UInt8) : Result (List UInt8 × List UInt8) :=
  if data.length < 8 then bail (unsealFailed "blob too short")
  else do
    let pubLen ← readU32 (← slice data 0 4)
    if data.length < 4 + pubLen + 4 then bail (unsealFailed "blob truncated (public)")
    else
      let pubBytes ← slice data 4 (4 + pubLen)
      let offset2 := 4 + pubLen
      let privLen ← readU32 (← slice data offset2 (offset2 + 4))
      let offset3 := offset2 + 4
      if data.length < offset3 + privLen then bail (unsealFailed "blob truncated (private)")
      else
        let privBytes ← slice data offset3 (offset3 + privLen)
        .ok (pubBytes, privBytes)

/-- `deserialise_blob`. -/
def deserialiseBlob [Tss] (data : List UInt8) : Result (Tss.Public × Tss.Private) := do
  let (pubBytes, privBytes) ← splitBlob data
  match Tss.unmarshall pubBytes with
  | .error e => bail (unsealFailed ("unmarshall public: " ++ e))
  | .ok pub =>
    match Tss.ofVec privBytes with
    | .error e => bail (unsealFailed ("deserialise private: " ++ e))
    | .ok priv => .ok (pub, priv)

/-! ## One string -/

section

variable {p q rest : List UInt8}

theorem takeLen_append (hne : p ≠ []) (hlen : p.length < 256 ^ 4) :
    takeLen (toLeBytes 4 p.length ++ (p ++ rest)) = some (p.length, rest) := by
  have hpos : 0 < p.length := List.length_pos_iff.mpr hne
  have htake : (toLeBytes 4 p.length ++ (p ++ rest)).take 4 = toLeBytes 4 p.length := by
    rw [List.take_left' (length_toLeBytes 4 _)]
  have hdrop : (toLeBytes 4 p.length ++ (p ++ rest)).drop 4 = p ++ rest := by
    rw [List.drop_left' (length_toLeBytes 4 _)]
  rw [takeLen, if_neg (by simp), htake, hdrop, fromLeBytes_toLeBytes hlen]
  dsimp only
  rw [if_pos ⟨hpos, by simp⟩, List.drop_left]

/-- A string is read only behind its length. -/
theorem takeLen_eq_some {b : List UInt8} {n : Nat} (h : takeLen b = some (n, rest)) :
    ∃ p, p ≠ [] ∧ p.length < 256 ^ 4 ∧ b = toLeBytes 4 p.length ++ (p ++ rest) := by
  unfold takeLen at h
  split at h
  · cases h
  · rename_i hlen
    dsimp only at h
    split at h
    · rename_i hn
      cases h
      have htake : (b.take 4).length = 4 := by
        rw [List.length_take]
        omega
      have hp : ((b.drop 4).take (fromLeBytes (b.take 4))).length = fromLeBytes (b.take 4) := by
        rw [List.length_take]
        omega
      refine ⟨(b.drop 4).take (fromLeBytes (b.take 4)), ?_, ?_, ?_⟩
      · rw [← List.length_pos_iff, hp]
        exact hn.1
      · rw [hp]
        simpa only [htake] using fromLeBytes_lt (b.take 4)
      · rw [hp, List.take_append_drop]
        have hback := toLeBytes_fromLeBytes (b.take 4)
        rw [htake] at hback
        rw [hback, List.take_append_drop]
    · cases h

theorem blobFrame_eq : blobFrame p q =
    toLeBytes 4 p.length ++ (p ++ (toLeBytes 4 q.length ++ (q ++ []))) := by
  simp [blobFrame]

/-! ## The frames -/

/-- Two strings that a frame can hold. -/
structure Framed (p q : List UInt8) : Prop where
  left : p ≠ []
  right : q ≠ []
  leftLen : p.length < 2 ^ 32
  rightLen : q.length < 2 ^ 32

/-- The recogniser accepts the frames and nothing else. -/
theorem looksLikeTpm2Blob_iff (blob : List UInt8) :
    looksLikeTpm2Blob blob = true ↔ ∃ p q, Framed p q ∧ blob = blobFrame p q := by
  constructor
  · intro h
    unfold looksLikeTpm2Blob at h
    cases hfirst : takeLen blob with
    | none => simp [hfirst] at h
    | some first =>
      obtain ⟨n, rest⟩ := first
      cases hsecond : takeLen rest with
      | none => simp [hfirst, hsecond] at h
      | some second =>
        obtain ⟨k, tail⟩ := second
        obtain rfl : tail = [] := by simpa [hfirst, hsecond] using h
        obtain ⟨p, hp, hplen, rfl⟩ := takeLen_eq_some hfirst
        obtain ⟨q, hq, hqlen, rfl⟩ := takeLen_eq_some hsecond
        exact ⟨p, q, ⟨hp, hq, hplen, hqlen⟩, blobFrame_eq.symm⟩
  · rintro ⟨p, q, h, rfl⟩
    rw [looksLikeTpm2Blob, blobFrame_eq, takeLen_append h.left h.leftLen]
    dsimp only
    rw [takeLen_append h.right h.rightLen]
    rfl

theorem slice_of_append {a data : List UInt8} {start stop : Nat} (hdata : data = a ++ (p ++ rest))
    (hstart : start = a.length) (hstop : stop = start + p.length) :
    slice data start stop = .ok p := by
  subst hdata hstart hstop
  rw [slice, if_pos ⟨by omega, by simp⟩, List.drop_left, Nat.add_sub_cancel_left, List.take_left]

theorem slice_ok {data : List UInt8} {start stop : Nat} (h : start ≤ stop ∧ stop ≤ data.length) :
    ∃ bytes, bytes.length = stop - start ∧ slice data start stop = .ok bytes := by
  refine ⟨_, ?_, if_pos h⟩
  rw [List.length_take, List.length_drop]
  omega

theorem readU32_toLeBytes {n : Nat} (h : n < 2 ^ 32) : readU32 (toLeBytes 4 n) = .ok n := by
  rw [readU32, if_pos (length_toLeBytes 4 n), fromLeBytes_toLeBytes h]

theorem readU32_ok {bytes : List UInt8} (h : bytes.length = 4) :
    readU32 bytes = .ok (fromLeBytes bytes) :=
  if_pos h

/-- The decoder takes a frame apart. -/
theorem splitBlob_blobFrame (hp : p.length < 2 ^ 32) (hq : q.length < 2 ^ 32) :
    splitBlob (blobFrame p q) = .ok (p, q) := by
  have hlen : (blobFrame p q).length = 4 + p.length + 4 + q.length := by
    simp [blobFrame]
    omega
  have hprivAt : blobFrame p q =
      (toLeBytes 4 p.length ++ p) ++ (toLeBytes 4 q.length ++ q) := by simp [blobFrame]
  have hend : blobFrame p q =
      (toLeBytes 4 p.length ++ p ++ toLeBytes 4 q.length) ++ (q ++ []) := by simp [blobFrame]
  have hpubLen : slice (blobFrame p q) 0 4 = .ok (toLeBytes 4 p.length) :=
    slice_of_append (a := []) blobFrame_eq rfl (by simp)
  have hpub : slice (blobFrame p q) 4 (4 + p.length) = .ok p :=
    slice_of_append blobFrame_eq (by simp) rfl
  have hprivLen : slice (blobFrame p q) (4 + p.length) (4 + p.length + 4) =
      .ok (toLeBytes 4 q.length) :=
    slice_of_append hprivAt (by simp) (by simp)
  have hpriv : slice (blobFrame p q) (4 + p.length + 4) (4 + p.length + 4 + q.length) = .ok q :=
    slice_of_append hend (by simp; omega) rfl
  simp only [splitBlob, hlen]
  rw [if_neg (by omega), hpubLen, result_ok_bind, readU32_toLeBytes hp, result_ok_bind,
    if_neg (by omega), hpub, result_ok_bind, hprivLen, result_ok_bind, readU32_toLeBytes hq,
    result_ok_bind, if_neg (by omega), hpriv]
  rfl

/-- The decoder reads within its input, whatever it is. -/
theorem splitBlob_answers (data : List UInt8) (msg : String) :
    splitBlob data ≠ .error (.panic msg) := by
  unfold splitBlob
  split
  · simp [bail]
  rename_i height
  obtain ⟨pubLen, hpubLen, hslice⟩ := @slice_ok data 0 4 (by omega)
  rw [hslice, result_ok_bind, readU32_ok hpubLen, result_ok_bind]
  split
  · simp [bail]
  rename_i hpub
  obtain ⟨pubBytes, -, hslice⟩ := @slice_ok data 4 (4 + fromLeBytes pubLen) (by omega)
  rw [hslice, result_ok_bind]
  dsimp only
  obtain ⟨privLen, hprivLen, hslice⟩ :=
    @slice_ok data (4 + fromLeBytes pubLen) (4 + fromLeBytes pubLen + 4) (by omega)
  rw [hslice, result_ok_bind, readU32_ok (by omega), result_ok_bind]
  split
  · simp [bail]
  rename_i hpriv
  obtain ⟨privBytes, -, hslice⟩ := @slice_ok data (4 + fromLeBytes pubLen + 4)
    (4 + fromLeBytes pubLen + 4 + fromLeBytes privLen) (by omega)
  rw [hslice]
  simp

theorem blobFrame_inj {p' q' : List UInt8} (h : Framed p q) (h' : Framed p' q')
    (heq : blobFrame p q = blobFrame p' q') : p = p' ∧ q = q' := by
  have hsplit := splitBlob_blobFrame h.leftLen h.rightLen
  rw [heq, splitBlob_blobFrame h'.leftLen h'.rightLen] at hsplit
  cases hsplit
  exact ⟨rfl, rfl⟩

end

/-! ## Blobs of other backends -/

theorem looksLikeTpm2Blob_short {blob : List UInt8} (h : blob.length < 4) :
    looksLikeTpm2Blob blob = false := by
  rw [looksLikeTpm2Blob, takeLen, if_pos h]

/-- A fourth byte that is not zero makes a length of at least `2 ^ 24`. -/
theorem looksLikeTpm2Blob_fourth {blob : List UInt8} {b : UInt8} (hlen : blob.length < 2 ^ 24)
    (hfourth : blob[3]? = some b) (hb : b ≠ 0) : looksLikeTpm2Blob blob = false := by
  rw [← Bool.not_eq_true, looksLikeTpm2Blob_iff]
  rintro ⟨p, q, h, rfl⟩
  have hbyte : (toLeBytes 4 p.length)[3]? = some b := by
    rwa [blobFrame_eq, List.getElem?_append_left (by simp)] at hfourth
  have hle := pow_le_fromLeBytes hbyte hb
  rw [fromLeBytes_toLeBytes h.leftLen] at hle
  simp only [blobFrame, List.length_append, length_toLeBytes] at hlen
  omega

/-- The bytes of a text without a NUL character. -/
theorem ne_zero_of_mem_utf8 {s : Str} (h : Char.ofNat 0 ∉ s) {b : UInt8} (hb : b ∈ Str.utf8 s) :
    b ≠ 0 := by
  obtain ⟨c, hc, hbyte⟩ := List.mem_flatMap.mp hb
  have hval : c.toNat ≠ 0 := by
    intro h0
    have hnul : c = Char.ofNat 0 := Char.ext (UInt32.toNat_inj.mp h0)
    exact h (hnul ▸ hc)
  rintro rfl
  obtain ⟨hlow, hbytes⟩ | ⟨-, -, hbytes⟩ := Str.utf8EncodeChar_cases c
  · rw [hbytes, List.mem_singleton, ← UInt8.toNat_inj, UInt8.toNat_ofNat'] at hbyte
    rw [Nat.mod_eq_of_lt (by omega)] at hbyte
    exact hval hbyte.symm
  · exact absurd (hbytes 0 hbyte) (by decide)

/-- A keyring label or a text credential is no TPM2 blob. -/
theorem looksLikeTpm2Blob_utf8 {s : Str} (h : Char.ofNat 0 ∉ s)
    (hlen : (Str.utf8 s).length < 2 ^ 24) : looksLikeTpm2Blob (Str.utf8 s) = false := by
  by_cases hshort : (Str.utf8 s).length < 4
  · exact looksLikeTpm2Blob_short hshort
  · have hget := List.getElem?_eq_getElem (l := Str.utf8 s) (i := 3) (by omega)
    exact looksLikeTpm2Blob_fourth hlen hget (ne_zero_of_mem_utf8 h (List.getElem_mem _))

/-! ## The three agree -/

theorem deserialiseBlob_answers [Tss] (data : List UInt8) (msg : String) :
    deserialiseBlob data ≠ .error (.panic msg) := by
  rw [deserialiseBlob]
  cases hsplit : splitBlob data with
  | error e =>
    rintro ⟨⟩
    exact splitBlob_answers data msg hsplit
  | ok strings =>
    obtain ⟨pubBytes, privBytes⟩ := strings
    rw [result_ok_bind]
    dsimp only
    cases Tss.unmarshall pubBytes with
    | error e => simp [bail]
    | ok pub => cases Tss.ofVec privBytes <;> simp [bail]

/-- What the encoder writes is a frame, and decoded to what it was. -/
theorem deserialiseBlob_serialiseBlob [Tss] (hround : Tss.RoundTrips) {pub : Tss.Public}
    {priv : Tss.Private} {pubBytes : List UInt8} (hpub : Tss.marshall pub = .ok pubBytes)
    (h : Framed pubBytes (Tss.toVec priv)) :
    serialiseBlob pub priv = .ok (blobFrame pubBytes (Tss.toVec priv)) ∧
      deserialiseBlob (blobFrame pubBytes (Tss.toVec priv)) = .ok (pub, priv) := by
  constructor
  · rw [serialiseBlob, hpub]
  · rw [deserialiseBlob, splitBlob_blobFrame h.leftLen h.rightLen, result_ok_bind]
    dsimp only
    rw [hround.pub pub pubBytes hpub]
    dsimp only
    rw [hround.priv]

/-- Recogniser, encoder and decoder are about one format. -/
theorem tpm2Blobs_agree [Tss] (hround : Tss.RoundTrips) :
    (∀ p q, Framed p q → looksLikeTpm2Blob (blobFrame p q) = true ∧
      splitBlob (blobFrame p q) = .ok (p, q)) ∧
    (∀ (pub : Tss.Public) (priv : Tss.Private) (pubBytes : List UInt8),
      Tss.marshall pub = .ok pubBytes → Framed pubBytes (Tss.toVec priv) →
      serialiseBlob pub priv = .ok (blobFrame pubBytes (Tss.toVec priv)) ∧
        deserialiseBlob (blobFrame pubBytes (Tss.toVec priv)) = .ok (pub, priv)) ∧
    (∀ blob, looksLikeTpm2Blob blob = true →
      ∃! s : List UInt8 × List UInt8, Framed s.1 s.2 ∧ blob = blobFrame s.1 s.2) ∧
    (∀ (blob : List UInt8) (b : UInt8), blob.length < 2 ^ 24 → blob[3]? = some b → b ≠ 0 →
      looksLikeTpm2Blob blob = false) ∧
    (∀ s : Str, Char.ofNat 0 ∉ s → (Str.utf8 s).length < 2 ^ 24 →
      looksLikeTpm2Blob (Str.utf8 s) = false) ∧
    (∀ blob : List UInt8, blob.length < 4 → looksLikeTpm2Blob blob = false) ∧
    (∀ (data : List UInt8) (msg : String), deserialiseBlob data ≠ .error (.panic msg)) := by
  refine ⟨fun p q h => ⟨(looksLikeTpm2Blob_iff _).mpr ⟨p, q, h, rfl⟩, ?_⟩,
    fun pub priv pubBytes hpub h => deserialiseBlob_serialiseBlob hround hpub h,
    fun blob h => ?_, fun blob b => looksLikeTpm2Blob_fourth,
    fun s => looksLikeTpm2Blob_utf8, fun blob => looksLikeTpm2Blob_short, deserialiseBlob_answers⟩
  · exact splitBlob_blobFrame h.leftLen h.rightLen
  · obtain ⟨p, q, hframed, rfl⟩ := (looksLikeTpm2Blob_iff blob).mp h
    refine ⟨(p, q), ⟨hframed, rfl⟩, ?_⟩
    rintro ⟨p', q'⟩ ⟨hframed', heq⟩
    obtain ⟨rfl, rfl⟩ := blobFrame_inj hframed hframed' heq
    rfl

/-- Objects that are their own bytes. -/
@[reducible]
def plainTss : Tss where
  Public := List UInt8
  Private := List UInt8
  marshall := .ok
  unmarshall := .ok
  toVec := id
  ofVec := .ok

theorem tpm2Blobs_agree_plain : @serialiseBlob plainTss [7, 7] [9] = .ok (blobFrame [7, 7] [9]) ∧
    @deserialiseBlob plainTss (blobFrame [7, 7] [9]) = .ok ([7, 7], [9]) := by
  have hround : @Tss.RoundTrips plainTss :=
    @Tss.RoundTrips.mk plainTss (fun p bytes h => h.symm) fun p => rfl
  have hframed : Framed [7, 7] [9] := ⟨by simp, by simp, by decide, by decide⟩
  exact (@tpm2Blobs_agree plainTss hround).2.1 [7, 7] [9] [7, 7] rfl hframed

end HearthVault
