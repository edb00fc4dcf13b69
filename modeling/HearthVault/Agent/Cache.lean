/-
HearthVault.Agent.Cache — the unlock agent (`agent.rs`).

The agent keeps wrap keys by vault for a fixed time to live. It is asked one
line at a time: `parseRequest` is the line parser, `answer` what each request
does to the cache, and `handle` one connection. `tryPut` and `tryGet` are the
client's side of the two exchanges.
-/
import HearthVault.Lib.Base64
import HearthVault.Lib.Files
import Std.Data.ExtTreeMap

namespace HearthVault.Agent

open Files

/-! ## The cache -/

/-- `Instant`, and `Duration`: nanoseconds. -/
abbrev Instant := Nat

/-- `[u8; 32]`. -/
structure Bytes32 where
  bytes : List UInt8
  length_eq : bytes.length = 32
  deriving DecidableEq

/-- The bytes as an array of 32, if that many they are. -/
def Bytes32.ofBytes (bytes : List UInt8) : Option Bytes32 :=
  if h : bytes.length = 32 then some ⟨bytes, h⟩ else none

@[simp] theorem Bytes32.ofBytes_bytes (key : Bytes32) : ofBytes key.bytes = some key := by
  simp [ofBytes, key.length_eq]

theorem Bytes32.bytes_ne_nil (key : Bytes32) : key.bytes ≠ [] := by
  intro h
  have hlen := key.length_eq
  rw [h] at hlen
  cases hlen

/-- `CachedKey`. -/
structure CachedKey where
  key : Bytes32
  expires : Instant
  deriving DecidableEq

/-- `Cache`: the keys by vault id. -/
abbrev Cache := Std.ExtTreeMap Str CachedKey compare

/-- `Cache::reap`. -/
def Cache.reap (cache : Cache) (now : Instant) : Cache :=
  cache.filter fun _ entry => now < entry.expires

/-- `Instant + Duration`: the seconds of an instant are an `i64`. -/
def deadline (now ttl : Instant) : Result Instant :=
  if (now + ttl) / 1000000000 ≤ 9223372036854775807 then .ok (now + ttl)
  else .error (.panic "overflow when adding duration to instant")

/-! ## Requests -/

/-- What a request line asks for. -/
inductive Request where
  | get (id : Str)
  | put (id : Str) (key : Bytes32)
  | badPut
  | drop
  | status
  | stop
  | unknown (verb : Str)
  deriving DecidableEq

/-- The request that the parts of a line make. -/
def requestOf (parts : List Str) : Request :=
  let verb := parts.headD []
  let id := parts.getD 1 []
  if verb = "GET".toList then .get id
  else if verb = "PUT".toList then
    match Bytes32.ofBytes ((Base64.decode (parts.getD 2 [])).getD []) with
    | some key => if id = [] then .badPut else .put id key
    | none => .badPut
  else if verb = "DROP".toList then .drop
  else if verb = "STATUS".toList then .status
  else if verb = "STOP".toList then .stop
  else .unknown verb

/-- The request of a line. -/
def parseRequest (line : Str) : Request :=
  requestOf (Str.splitN 3 ' ' (Str.trim line))

/-- The reply with a key. -/
def okReply (key : Bytes32) : Str :=
  "OK ".toList ++ Base64.encode key.bytes ++ ['\n']

def missReply : Str :=
  "MISS\n".toList

/-- One connection is done: the reply, the cache, and whether the agent exits. -/
structure Handled where
  reply : Str
  cache : Cache
  stop : Bool

/-- What a request does. Both readings of the clock within one request give
the same instant. -/
def answer (ttl now : Instant) (cache : Cache) : Request → Result Handled
  | .get id =>
    let cache := cache.reap now
    match cache[id]? with
    | some entry => .ok ⟨okReply entry.key, cache, false⟩
    | none => .ok ⟨missReply, cache, false⟩
  | .put id key => do
    let expires ← deadline now ttl
    .ok ⟨"OK\n".toList, (cache.reap now).insert id ⟨key, expires⟩, false⟩
  | .badPut => .ok ⟨"ERR bad request\n".toList, cache, false⟩
  | .drop => .ok ⟨"OK dropped ".toList ++ Nat.toDigits 10 cache.size ++ ['\n'], ∅, false⟩
  | .status =>
    let cache := cache.reap now
    .ok ⟨"OK ".toList ++ Nat.toDigits 10 cache.size ++ " cached\n".toList, cache, false⟩
  | .stop => .ok ⟨"OK stopping\n".toList, ∅, true⟩
  | .unknown verb => .ok ⟨"ERR unknown verb ".toList ++ verb ++ ['\n'], cache, false⟩

/-- What is read from a connection: a line, or bytes that are no text. -/
inductive Line where
  | text (s : Str)
  | garbage (bytes : List UInt8)
  deriving DecidableEq

/-- `handle`: bytes that are no text get no reply. -/
def handle (ttl now : Instant) (cache : Cache) : Line → Result Handled
  | .text s => answer ttl now cache (parseRequest s)
  | .garbage _ => .ok ⟨[], cache, false⟩

/-- The cache after a sequence of connections, each at its instant. -/
def handleAll (ttl : Instant) : List (Instant × Line) → Cache → Result Cache
  | [], cache => .ok cache
  | (now, line) :: rest, cache => do
    let handled ← handle ttl now cache line
    handleAll ttl rest handled.cache

/-! ## The client -/

/-- `hash_blake3`. -/
class Blake3 where
  hash : List UInt8 → Bytes32

section

variable [Blake3]

/-- `vault_id`, of the canonical path. -/
def vaultId (canonical : Str) : Str :=
  Base64.encode (Blake3.hash (Str.utf8 canonical)).bytes

def putLine (vault : Str) (key : Bytes32) : Str :=
  "PUT ".toList ++ vaultId vault ++ ' ' :: Base64.encode key.bytes ++ ['\n']

def getLine (vault : Str) : Str :=
  "GET ".toList ++ vaultId vault ++ ['\n']

/-- `try_put` with an agent that answers. -/
def tryPut (ttl now : Instant) (cache : Cache) (vault : Str) (key : Bytes32) :
    Result (Bool × Cache) := do
  let handled ← handle ttl now cache (.text (putLine vault key))
  .ok ("OK".toList.isPrefixOf handled.reply, handled.cache)

/-- The key in a reply. -/
def readReply (reply : Str) : Option Bytes32 := do
  let encoded ← Str.stripPrefix "OK ".toList (Str.trim reply)
  let bytes ← Base64.decode encoded
  Bytes32.ofBytes bytes

/-- `try_get` with an agent that answers. -/
def tryGet (ttl now : Instant) (cache : Cache) (vault : Str) : Result (Option Bytes32 × Cache) := do
  let handled ← handle ttl now cache (.text (getLine vault))
  .ok (readReply handled.reply, handled.cache)

end

end HearthVault.Agent
