import KeryxNode.ByteCodec
import KeryxNode.Collateral

/-!
# Payloads of the Inference Protocol

Requests, responses and challenges travel as the payloads of transactions
(`inference/src/ai_payload.rs`), and a miner declares the models it has loaded in the free data of
its coinbase (`parse_ai_caps` of `inference/src/lib.rs`). Numbers are little endian at fixed
offsets; a payload of a wrong length has no content.
-/

namespace KeryxNode

namespace Tx

open ByteCodec

/-- Byte strings are compared byte by byte: membership in a list of them is decidable. -/
instance bytes_lawfulBEq : LawfulBEq (List UInt8) :=
  inferInstance

/-! ### Lengths and prices -/

def minAiRequestPayloadLen : ℕ := 52

def maxAiRequestPayloadLen : ℕ := 4096

/-- The least priority fee of a request. -/
def minAiRequestPriorityFee : ℕ := 30000000

/-- The price of 64 more tokens. -/
def inferenceRewardTokenStep : ℕ := 5000000

def aiResponsePayloadLen : ℕ := 78

/-- The length of a response with the key and the signature of its responder. -/
def aiResponsePayloadV2Len : ℕ := aiResponsePayloadLen + 32 + 64

def minAiResponsePayloadLen : ℕ := aiResponsePayloadLen

def maxAiResponsePayloadLen : ℕ := aiResponsePayloadV2Len

def minAiChallengePayloadLen : ℕ := 74

def maxAiChallengePayloadLen : ℕ := 32768

/-- The script that locks the reward of a routed request: a return of the bytes of "aivault". -/
def inferenceVaultScript : List UInt8 :=
  [0x6a, 0x07, 0x61, 0x69, 0x76, 0x61, 0x75, 0x6c, 0x74]

/-! ### Requests -/

/-- The payload of a request. -/
structure AiRequestPayload where
  modelId : List UInt8
  maxTokens : ℕ
  inferenceReward : ℕ
  priorityFee : ℕ
  prompt : List UInt8
  deriving DecidableEq

namespace AiRequestPayload

def serialize (r : AiRequestPayload) : List UInt8 :=
  r.modelId ++ leBytes 4 r.maxTokens ++ leBytes 8 r.inferenceReward ++ leBytes 8 r.priorityFee ++
    r.prompt

def deserialize (data : List UInt8) : Option AiRequestPayload :=
  if data.length < minAiRequestPayloadLen ∨ maxAiRequestPayloadLen < data.length then none
  else some
    { modelId := slice data 0 32
      maxTokens := leValue (slice data 32 36)
      inferenceReward := leValue (slice data 36 44)
      priorityFee := leValue (slice data 44 52)
      prompt := data.drop 52 }

end AiRequestPayload

/-! ### Responses -/

/-- The key of a responder and its signature over the first 78 bytes. -/
structure AiResponder where
  escrowPubkey : List UInt8
  signature : List UInt8
  deriving DecidableEq

/-- The payload of a response. -/
structure AiResponsePayload where
  requestHash : List UInt8
  challengeWindowEnd : ℕ
  responseIpfsCid : List UInt8
  responseLength : ℕ
  responder : Option AiResponder
  deriving DecidableEq

namespace AiResponsePayload

/-- The bytes a responder signs. -/
def signedBytes (r : AiResponsePayload) : List UInt8 :=
  r.requestHash ++ leBytes 8 r.challengeWindowEnd ++ r.responseIpfsCid ++ leBytes 4 r.responseLength

def serialize (r : AiResponsePayload) : List UInt8 :=
  match r.responder with
  | some responder => r.signedBytes ++ responder.escrowPubkey ++ responder.signature
  | none => r.signedBytes

def deserialize (data : List UInt8) : Option AiResponsePayload :=
  if data.length ≠ aiResponsePayloadLen ∧ data.length ≠ aiResponsePayloadV2Len then none
  else some
    { requestHash := slice data 0 32
      challengeWindowEnd := leValue (slice data 32 40)
      responseIpfsCid := slice data 40 74
      responseLength := leValue (slice data 74 78)
      responder := if data.length = aiResponsePayloadV2Len then
        some ⟨slice data 78 110, slice data 110 174⟩ else none }

end AiResponsePayload

/-! ### Challenges -/

/-- The payload of a challenge. -/
structure AiChallengePayload where
  responseHash : List UInt8
  challengerDeposit : ℕ
  challengerSpkVersion : ℕ
  challengerSpk : List UInt8
  proofData : List UInt8
  deriving DecidableEq

namespace AiChallengePayload

def deserialize (data : List UInt8) : Option AiChallengePayload :=
  if data.length < minAiChallengePayloadLen ∨ maxAiChallengePayloadLen < data.length then none
  else some
    { responseHash := slice data 0 32
      challengerDeposit := leValue (slice data 32 40)
      challengerSpkVersion := leValue (slice data 40 42)
      challengerSpk := slice data 42 74
      proofData := data.drop 74 }

end AiChallengePayload

/-! ### Declared models -/

/-- The value of a hexadecimal digit, in either case. -/
def hexDigit (b : UInt8) : Option UInt8 :=
  if 0x30 ≤ b ∧ b ≤ 0x39 then some (b - 0x30)
  else if 0x61 ≤ b ∧ b ≤ 0x66 then some (b - 0x61 + 10)
  else if 0x41 ≤ b ∧ b ≤ 0x46 then some (b - 0x41 + 10)
  else none

/-- The bytes a hexadecimal string spells. -/
def hexDecode : List UInt8 → Option (List UInt8)
  | [] => some []
  | [_] => none
  | hi :: lo :: rest => do
    let hi ← hexDigit hi
    let lo ← hexDigit lo
    let bytes ← hexDecode rest
    some ((hi * 16 + lo) :: bytes)

/-- The continuation of a character: how many bytes are still owed and the range of the next. -/
structure Utf8State where
  owed : ℕ
  low : UInt8 := 0x80
  high : UInt8 := 0xbf

/-- The state after the first byte of a character. -/
def utf8First (b : UInt8) : Option Utf8State :=
  if b ≤ 0x7f then some ⟨0, 0x80, 0xbf⟩
  else if 0xc2 ≤ b ∧ b ≤ 0xdf then some ⟨1, 0x80, 0xbf⟩
  else if b = 0xe0 then some ⟨2, 0xa0, 0xbf⟩
  else if b = 0xed then some ⟨2, 0x80, 0x9f⟩
  else if 0xe1 ≤ b ∧ b ≤ 0xef then some ⟨2, 0x80, 0xbf⟩
  else if b = 0xf0 then some ⟨3, 0x90, 0xbf⟩
  else if 0xf1 ≤ b ∧ b ≤ 0xf3 then some ⟨3, 0x80, 0xbf⟩
  else if b = 0xf4 then some ⟨3, 0x80, 0x8f⟩
  else none

/-- Whether bytes are text. -/
def isUtf8 (bytes : List UInt8) : Bool :=
  go ⟨0, 0x80, 0xbf⟩ bytes
where
  go : Utf8State → List UInt8 → Bool
    | s, [] => decide (s.owed = 0)
    | s, b :: bytes =>
      if s.owed = 0 then
        match utf8First b with
        | some s => go s bytes
        | none => false
      else if s.low ≤ b ∧ b ≤ s.high then go ⟨s.owed - 1, 0x80, 0xbf⟩ bytes
      else false

/-- The least offset of the free data in a coinbase payload. -/
def coinbaseMinBinaryHeader : ℕ := 19

/-- The bytes of "/ai:cap:". -/
def aiCapMarker : List UInt8 :=
  [0x2f, 0x61, 0x69, 0x3a, 0x63, 0x61, 0x70, 0x3a]

/-- What follows the first occurrence of the marker. -/
def afterMarker : List UInt8 → Option (List UInt8)
  | [] => none
  | b :: bytes =>
    if aiCapMarker.isPrefixOf (b :: bytes) then some ((b :: bytes).drop aiCapMarker.length)
    else afterMarker bytes

/-- The models a coinbase declares: a list of hexadecimal identifiers up to the next slash.
Entries that are no identifier are passed over. -/
def parseAiCaps (payload : List UInt8) : List (List UInt8) :=
  match afterMarker (payload.drop coinbaseMinBinaryHeader) with
  | none => []
  | some rest =>
    let caps := rest.takeWhile fun b => decide (b ≠ 0x2f)
    if isUtf8 caps then
      ((caps.splitOn 0x2c).filter fun s => decide (s.length = 64)).filterMap hexDecode
    else []

end Tx

end KeryxNode
