/-
HearthVault.Agent.CacheTheorems — the agent forgets.

What the agent answers to a `GET` is read off the history of the requests
before it: `Cached` looks for the last request that speaks of the key and says
that it put it, less than a time to live ago. The cache says the same
(`live_handleAll`), by what one request does to it (`live_handle`).
-/
import HearthVault.Agent.Cache

namespace HearthVault.Agent

open Files

/-! ## Histories -/

/-- The request of a connection, if what came in was text. -/
def Line.request : Line → Option Request
  | .text s => some (parseRequest s)
  | .garbage _ => none

/-- The request sets or forgets the key of `id`. -/
def Overrides (id : Str) : Line → Prop
  | .text s => match parseRequest s with
    | .put id' _ => id' = id
    | .drop | .stop => True
    | _ => False
  | .garbage _ => False

/-- Of the requests that set or forget the key of `id`, the last one has put
`key`, less than `ttl` before `t`. -/
def Cached (ttl : Instant) (history : List (Instant × Line)) (id : Str) (t : Instant)
    (key : Bytes32) : Prop :=
  ∃ before t₀ line after, history = before ++ (t₀, line) :: after ∧
    line.request = some (.put id key) ∧ (∀ e ∈ after, ¬Overrides id e.2) ∧ t < t₀ + ttl

/-- The cache answers `key` at `t`. -/
def Cache.Live (cache : Cache) (id : Str) (t : Instant) (key : Bytes32) : Prop :=
  ∃ entry, cache[id]? = some entry ∧ entry.key = key ∧ t < entry.expires

theorem not_cached_nil {ttl t : Instant} {id : Str} {key : Bytes32} : ¬Cached ttl [] id t key := by
  rintro ⟨before, t₀, line, after, h, -⟩
  simp at h

/-- One more request. -/
theorem cached_concat {ttl t t₀ : Instant} {history : List (Instant × Line)} {line : Line}
    {id : Str} {key : Bytes32} : Cached ttl (history ++ [(t₀, line)]) id t key ↔
      (line.request = some (.put id key) ∧ t < t₀ + ttl) ∨
        (¬Overrides id line ∧ Cached ttl history id t key) := by
  constructor
  · rintro ⟨before, t₁, put, after, h, hput, hafter, ht⟩
    rcases List.eq_nil_or_concat after with rfl | ⟨after, last, rfl⟩
    · obtain ⟨rfl, heq⟩ := List.append_inj' h rfl
      cases heq
      exact .inl ⟨hput, ht⟩
    · simp only [List.concat_eq_append] at h hafter
      rw [← List.cons_append, ← List.append_assoc] at h
      obtain ⟨rfl, heq⟩ := List.append_inj' h rfl
      cases heq
      exact .inr ⟨hafter (t₀, line) (by simp), before, t₁, put, after, rfl, hput,
        fun e he => hafter e (List.mem_append_left _ he), ht⟩
  · rintro (⟨hput, ht⟩ | ⟨hline, before, t₁, put, after, rfl, hput, hafter, ht⟩)
    · exact ⟨history, t₀, line, [], rfl, hput, nofun, ht⟩
    · refine ⟨before, t₁, put, after ++ [(t₀, line)], by simp, hput, fun e he => ?_, ht⟩
      obtain he | he := List.mem_append.mp he
      · exact hafter e he
      · rw [List.mem_singleton.mp he]
        exact hline

/-! ## One request -/

theorem Cache.live_empty {id : Str} {t : Instant} {key : Bytes32} :
    ¬Cache.Live ∅ id t key := by
  rintro ⟨entry, h, -⟩
  simp at h

/-- Reaping forgets only what has expired. -/
theorem Cache.live_reap {cache : Cache} {now t : Instant} (h : now ≤ t) {id : Str}
    {key : Bytes32} : (cache.reap now).Live id t key ↔ cache.Live id t key := by
  have hget : (cache.reap now)[id]? = cache[id]?.filter fun e => now < e.expires := by
    rw [Cache.reap, Std.ExtTreeMap.getElem?_filter']
  constructor
  · rintro ⟨entry, hentry, hkey, ht⟩
    rw [hget, Option.filter_eq_some_iff] at hentry
    exact ⟨entry, hentry.1, hkey, ht⟩
  · rintro ⟨entry, hentry, hkey, ht⟩
    refine ⟨entry, ?_, hkey, ht⟩
    rw [hget, hentry, Option.filter_some, if_pos (by simpa using lt_of_le_of_lt h ht)]

theorem Cache.live_insert {cache : Cache} {id id' : Str} {entry : CachedKey} {t : Instant}
    {key : Bytes32} : Cache.Live (cache.insert id' entry) id t key ↔
      (id' = id ∧ entry.key = key ∧ t < entry.expires) ∨ (id' ≠ id ∧ cache.Live id t key) := by
  by_cases hid : id' = id
  · simp [Live, hid]
  · simp [Live, hid, Std.ExtTreeMap.getElem?_insert]

/-- What one request does to the keys that are alive from then on. -/
theorem live_handle {ttl now t : Instant} {cache : Cache} {line : Line} {handled : Handled}
    (h : handle ttl now cache line = .ok handled) (ht : now ≤ t) {id : Str} {key : Bytes32} :
    handled.cache.Live id t key ↔ (line.request = some (.put id key) ∧ t < now + ttl) ∨
      (¬Overrides id line ∧ cache.Live id t key) := by
  cases line with
  | garbage bytes =>
    cases h
    simp [Line.request, Overrides]
  | text s =>
    simp only [handle] at h
    simp only [Line.request, Overrides, Option.some.injEq]
    cases hr : parseRequest s with
    | get id' =>
      rw [hr, answer] at h
      cases hentry : (cache.reap now)[id']? <;> simp only [hentry] at h <;> cases h <;>
        simp [Cache.live_reap ht]
    | put id' key' =>
      rw [hr, answer, result_bind_eq_ok] at h
      obtain ⟨expires, hexpires, h⟩ := h
      cases h
      obtain rfl : now + ttl = expires := by
        unfold deadline at hexpires
        split at hexpires
        · cases hexpires
          rfl
        · cases hexpires
      rw [Cache.live_insert, Cache.live_reap ht]
      simp [and_assoc]
    | badPut =>
      rw [hr] at h
      cases h
      simp
    | drop =>
      rw [hr] at h
      cases h
      simp [Cache.live_empty]
    | status =>
      rw [hr] at h
      cases h
      simp [Cache.live_reap ht]
    | stop =>
      rw [hr] at h
      cases h
      simp [Cache.live_empty]
    | unknown verb =>
      rw [hr] at h
      cases h
      simp

/-! ## All requests -/

theorem handleAll_append {ttl : Instant} {history later : List (Instant × Line)} {cache : Cache} :
    handleAll ttl (history ++ later) cache =
      handleAll ttl history cache >>= handleAll ttl later := by
  induction history generalizing cache with
  | nil => rfl
  | cons e history ih =>
    cases hr : handle ttl e.1 cache e.2 with
    | error e' => simp [handleAll, hr]
    | ok handled => simp [handleAll, hr, ih]

/-- The keys that are alive are those that the history of requests tells. -/
theorem live_handleAll {ttl t : Instant} {history : List (Instant × Line)} {cache : Cache}
    (h : handleAll ttl history ∅ = .ok cache) (ht : ∀ e ∈ history, e.1 ≤ t) {id : Str}
    {key : Bytes32} : cache.Live id t key ↔ Cached ttl history id t key := by
  induction history using List.reverseRecOn generalizing cache with
  | nil =>
    cases h
    simp [Cache.live_empty, not_cached_nil]
  | append_singleton history e ih =>
    obtain ⟨t₀, line⟩ := e
    rw [handleAll_append, result_bind_eq_ok] at h
    obtain ⟨cache', hhistory, hlast⟩ := h
    rw [handleAll, result_bind_eq_ok] at hlast
    obtain ⟨handled, hhandled, hlast⟩ := hlast
    cases hlast
    rw [live_handle hhandled (ht (t₀, line) (by simp)), cached_concat,
      ih hhistory fun e he => ht e (List.mem_append_left _ he)]

/-- A key that nothing overrides stays as it is. -/
theorem live_of_not_overrides {ttl t : Instant} {later : List (Instant × Line)}
    {cache cache' : Cache} (h : handleAll ttl later cache = .ok cache')
    (ht : ∀ e ∈ later, e.1 ≤ t) {id : Str} (hid : ∀ e ∈ later, ¬Overrides id e.2) {key : Bytes32}
    (hlive : cache.Live id t key) : cache'.Live id t key := by
  induction later generalizing cache with
  | nil =>
    cases h
    exact hlive
  | cons e later ih =>
    rw [handleAll, result_bind_eq_ok] at h
    obtain ⟨handled, hhandled, h⟩ := h
    refine ih h (fun e he => ht e (.tail _ he)) (fun e he => hid e (.tail _ he)) ?_
    exact (live_handle hhandled (ht e (.head _))).mpr (.inr ⟨hid e (.head _), hlive⟩)

/-! ## Replies -/

theorem okReply_injective {key key' : Bytes32} (h : okReply key = okReply key') : key = key' := by
  have hbytes : some key.bytes = some key'.bytes := by
    rw [← Base64.decode_encode, ← Base64.decode_encode]
    simp only [okReply, List.append_assoc, List.append_cancel_left_eq] at h
    rw [(List.append_inj' h rfl).1]
  cases key
  cases key'
  cases hbytes
  rfl

theorem okReply_ne_missReply (key : Bytes32) : okReply key ≠ missReply := by
  intro h
  have hhead := congrArg List.head? h
  simp [okReply, missReply] at hhead

/-- The reply to a `GET`. -/
theorem handle_get (ttl t : Instant) (cache : Cache) {s id : Str} (hs : parseRequest s = .get id) :
    ∃ reply cache', handle ttl t cache (.text s) = .ok ⟨reply, cache', false⟩ ∧
      (∀ key, reply = okReply key ↔ cache.Live id t key) ∧
      (reply = missReply ↔ ∀ key, ¬cache.Live id t key) := by
  have hlive : ∀ key, (cache.reap t).Live id t key ↔ cache.Live id t key :=
    fun key => Cache.live_reap le_rfl
  rw [handle, hs, answer]
  simp only [← hlive]
  cases hentry : (cache.reap t)[id]? with
  | none =>
    refine ⟨missReply, cache.reap t, rfl, fun key => ?_, ?_⟩
    · simp [Cache.Live, hentry, (okReply_ne_missReply key).symm]
    · simp [Cache.Live, hentry]
  | some entry =>
    have hexpires : t < entry.expires := by
      rw [Cache.reap, Std.ExtTreeMap.getElem?_filter', Option.filter_eq_some_iff] at hentry
      simpa using hentry.2
    refine ⟨okReply entry.key, cache.reap t, rfl, fun key => ?_, ?_⟩
    · constructor
      · intro h
        exact ⟨entry, hentry, okReply_injective h, hexpires⟩
      · rintro ⟨entry', hentry', rfl, -⟩
        rw [hentry] at hentry'
        cases hentry'
        rfl
    · simp only [okReply_ne_missReply, false_iff, not_forall, not_not]
      exact ⟨entry.key, entry, hentry, rfl, hexpires⟩

/-! ## The client -/

section Client

variable [Blake3]

omit [Blake3] in
/-- An encoding has no blank. -/
theorem space_notMem_encode (bytes : List UInt8) : ' ' ∉ Base64.encode bytes := by
  intro h
  exact absurd (Base64.isWhitespace_of_mem_encode h) (by decide)

omit [Blake3] in
/-- A line that ends in an encoding, read with its line break. -/
theorem trim_encode {start : Str} {bytes : List UInt8} (hne : start ≠ [])
    (hstart : ∀ c, start.head? = some c → Str.isWhitespace c = false) (hbytes : bytes ≠ []) :
    Str.trim (start ++ Base64.encode bytes ++ ['\n']) = start ++ Base64.encode bytes := by
  refine Str.trim_line (by simp [hne]) (fun c hc => hstart c ?_) fun c hc => ?_
  · cases start with
    | nil => exact absurd rfl hne
    | cons x start => exact hc
  · rw [List.getLast?_append_of_ne_nil _ (Base64.encode_ne_nil hbytes)] at hc
    exact Base64.isWhitespace_of_mem_encode (List.mem_of_getLast? hc)

theorem vaultId_ne_nil (vault : Str) : vaultId vault ≠ [] :=
  Base64.encode_ne_nil (Bytes32.bytes_ne_nil _)

theorem parseRequest_getLine (vault : Str) :
    parseRequest (getLine vault) = .get (vaultId vault) := by
  have htrim : Str.trim (getLine vault) = "GET".toList ++ ' ' :: vaultId vault :=
    trim_encode (by decide) (by simp; decide) (Bytes32.bytes_ne_nil _)
  have hsplit : Str.splitN 3 ' ' ("GET".toList ++ ' ' :: vaultId vault) =
      ["GET".toList, vaultId vault] := by
    rw [Str.splitN_append (by decide)]
    exact congrArg _ (Str.splitN_of_notMem (space_notMem_encode _))
  rw [parseRequest, htrim, hsplit]
  rfl

theorem parseRequest_putLine (vault : Str) (key : Bytes32) :
    parseRequest (putLine vault key) = .put (vaultId vault) key := by
  have htrim : Str.trim (putLine vault key) =
      "PUT".toList ++ ' ' :: (vaultId vault ++ ' ' :: Base64.encode key.bytes) := by
    have hline : Str.trim ("PUT ".toList ++ vaultId vault ++ [' '] ++ Base64.encode key.bytes ++
        ['\n']) = "PUT ".toList ++ vaultId vault ++ [' '] ++ Base64.encode key.bytes :=
      trim_encode (by simp) (by simp; decide) key.bytes_ne_nil
    simpa [putLine] using hline
  have hsplit : Str.splitN 3 ' ' ("PUT".toList ++ ' ' :: (vaultId vault ++ ' ' ::
      Base64.encode key.bytes)) = ["PUT".toList, vaultId vault, Base64.encode key.bytes] := by
    have hid : ' ' ∉ vaultId vault := space_notMem_encode _
    rw [Str.splitN_append (by decide), Str.splitN_append hid,
      Str.splitN_of_notMem (space_notMem_encode _)]
  rw [parseRequest, htrim, hsplit]
  simp [requestOf, Base64.decode_encode, vaultId_ne_nil]

omit [Blake3] in
theorem readReply_okReply (key : Bytes32) : readReply (okReply key) = some key := by
  have htrim : Str.trim (okReply key) = "OK ".toList ++ Base64.encode key.bytes :=
    trim_encode (by decide) (by simp; decide) key.bytes_ne_nil
  simp [readReply, htrim, Str.stripPrefix, Base64.decode_encode]

end Client

/-! ## The agent -/

/-- The agent answers a key exactly while it is cached: the reply to a `GET`
is read off the requests before it, no other request than a `PUT` of its own
key, a `DROP` or a `STOP` matters to a key, and a client gets back what it
put. -/
theorem agent_forgets [Blake3] {ttl t : Instant} {history : List (Instant × Line)} {cache : Cache}
    (hrun : handleAll ttl history ∅ = .ok cache) (ht : ∀ e ∈ history, e.1 ≤ t) :
    (∀ s id, parseRequest s = .get id →
      ∃ reply cache', handle ttl t cache (.text s) = .ok ⟨reply, cache', false⟩ ∧
        (∀ key, reply = okReply key ↔ Cached ttl history id t key) ∧
        (reply = missReply ↔ ∀ key, ¬Cached ttl history id t key)) ∧
    (∀ line id handled, ¬Overrides id line → handle ttl t cache line = .ok handled →
      ∀ t' ≥ t, ∀ key, handled.cache.Live id t' key ↔ cache.Live id t' key) ∧
    (∀ vault key put cache₁ later cache₂ t', tryPut ttl t cache vault key = .ok (put, cache₁) →
      handleAll ttl later cache₁ = .ok cache₂ →
      (∀ e ∈ later, ¬Overrides (vaultId vault) e.2) → (∀ e ∈ later, e.1 ≤ t') → t ≤ t' →
      t' < t + ttl → put = true ∧
        ∃ cache₃, tryGet ttl t' cache₂ vault = .ok (some key, cache₃)) := by
  refine ⟨fun s id hs => ?_, fun line id handled hline hhandled t' ht' key => ?_, ?_⟩
  · obtain ⟨reply, cache', hreply, hok, hmiss⟩ := handle_get ttl t cache hs
    simp only [live_handleAll hrun ht] at hok hmiss
    exact ⟨reply, cache', hreply, hok, hmiss⟩
  · have hput : line.request ≠ some (.put id key) := by
      intro heq
      cases line with
      | garbage bytes => cases heq
      | text s =>
        rw [Line.request, Option.some.injEq] at heq
        simp [Overrides, heq] at hline
    rw [live_handle hhandled ht']
    simp [hput, hline]
  · intro vault key put cache₁ later cache₂ t' hput hlater hid hle htt' ht'
    rw [tryPut, result_bind_eq_ok] at hput
    obtain ⟨handled, hhandled, hput⟩ := hput
    cases hput
    have hlive : handled.cache.Live (vaultId vault) t' key := by
      rw [live_handle hhandled htt']
      exact .inl ⟨by rw [Line.request, parseRequest_putLine], ht'⟩
    have hanswer : "OK".toList.isPrefixOf handled.reply = true := by
      rw [handle, parseRequest_putLine, answer, result_bind_eq_ok] at hhandled
      obtain ⟨expires, -, hhandled⟩ := hhandled
      cases hhandled
      rfl
    obtain ⟨reply, cache₃, hreply, hok, -⟩ :=
      handle_get ttl t' cache₂ (parseRequest_getLine vault)
    have hkey : reply = okReply key :=
      (hok key).mpr (live_of_not_overrides hlater hle hid hlive)
    refine ⟨hanswer, cache₃, ?_⟩
    rw [tryGet, hreply, hkey, result_ok_bind, readReply_okReply]

/-- The path of a vault plays no part in the run below. -/
@[reducible] def noPaths : Blake3 :=
  ⟨fun _ => ⟨List.replicate 32 0, rfl⟩⟩

def sevens : Bytes32 :=
  ⟨List.replicate 32 7, rfl⟩

/-- A key put at 0 for 5, and a line that is no request. -/
def putSevens : List (Instant × Line) :=
  [(0, .text ("PUT v ".toList ++ Base64.encode sevens.bytes)), (3, .text "PUT v !".toList)]

theorem agent_forgets_sevens : ∃ cache reply cache', handleAll 5 putSevens ∅ = .ok cache ∧
    handle 5 4 cache (.text "GET v".toList) = .ok ⟨reply, cache', false⟩ ∧
      (reply = okReply sevens ↔ Cached 5 putSevens "v".toList 4 sevens) := by
  let _ := noPaths
  have hok : (handleAll 5 putSevens ∅).isOk = true := by decide
  cases hrun : handleAll 5 putSevens ∅ with
  | error e =>
    rw [hrun] at hok
    cases hok
  | ok cache =>
    have hle : ∀ e ∈ putSevens, e.1 ≤ 4 := by decide
    obtain ⟨reply, cache', hreply, hkey, -⟩ :=
      (agent_forgets hrun hle).1 "GET v".toList "v".toList (by decide)
    exact ⟨cache, reply, cache', rfl, hreply, hkey sevens⟩

end HearthVault.Agent
