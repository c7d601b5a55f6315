import CelestiaCore.Wire.Field

/-!
# The secret connection

`p2p/conn/secret_connection.go`. The cryptography is ideal: the two derived keys differ, and a frame
opens exactly when it was sealed with the same key and nonce.
-/
namespace CelestiaCore.P2P
open Wire Function

def dataLenSize : ℕ := 4

def dataMaxSize : ℕ := 1024

def totalFrameSize : ℕ := dataMaxSize + dataLenSize

def aeadSizeOverhead : ℕ := 16

def aeadKeySize : ℕ := 32

/-- The cryptography of the connection. Agreement on the secret fails for points of low order. -/
structure Suite where
  pubKey : Bytes → Bytes
  x25519 : Bytes → Bytes → Option Bytes
  hkdf : Bytes → Bytes
  aeadSeal : (key nonce plaintext : Bytes) → Bytes
  agree : ∀ a b, x25519 a (pubKey b) = x25519 b (pubKey a)
  independent : ∀ secret,
    (hkdf secret).take aeadKeySize ≠ ((hkdf secret).drop aeadKeySize).take aeadKeySize
  length_aeadSeal : ∀ key nonce plaintext,
    (aeadSeal key nonce plaintext).length = plaintext.length + aeadSizeOverhead

/-- `bytes.Compare` is the lexical order of the bytes. -/
def sort32 (foo bar : Bytes) : Bytes × Bytes := if foo < bar then (foo, bar) else (bar, foo)

def deriveSecrets (suite : Suite) (dhSecret : Bytes) (locIsLeast : Bool) : Bytes × Bytes :=
  let res := suite.hkdf dhSecret
  if locIsLeast then (res.take aeadKeySize, (res.drop aeadKeySize).take aeadKeySize)
  else ((res.drop aeadKeySize).take aeadKeySize, res.take aeadKeySize)

structure SecretConnection where
  recvSecret : Bytes
  sendSecret : Bytes
  recvBuffer : Bytes
  recvNonce : Bytes
  sendNonce : Bytes
  /-- The frame is written over for each chunk; what a shorter chunk leaves of it is sent again. -/
  sendFrame : Bytes
  deriving DecidableEq

/-- `MakeSecretConnection` with the other endpoint's ephemeral key, up to the point where the
endpoints authenticate each other over the connection. -/
def makeSecretConnection (suite : Suite) (locEphPriv remEphPub : Bytes) : Option SecretConnection :=
  let locEphPub := suite.pubKey locEphPriv
  let locIsLeast := decide (locEphPub = (sort32 locEphPub remEphPub).1)
  (suite.x25519 locEphPriv remEphPub).map fun dhSecret =>
    let secrets := deriveSecrets suite dhSecret locIsLeast
    ⟨secrets.1, secrets.2, [], List.replicate 12 0, List.replicate 12 0,
      List.replicate totalFrameSize 0⟩

/-- The counter is in the last eight bytes. It is `none` when it cannot be increased, where the
source panics. -/
def incrNonce (nonce : Bytes) : Option Bytes :=
  let counter := leValue (nonce.drop 4)
  if counter = 2 ^ 64 - 1 then none else some (nonce.take 4 ++ leBytes 8 (counter + 1))

/-- The length and the chunk are written over the start of the frame. -/
def fillFrame (frame chunk : Bytes) : Bytes :=
  leBytes dataLenSize chunk.length ++ (chunk ++ frame.drop (dataLenSize + chunk.length))

/-! ## Two endpoints -/

inductive Side where
  | left
  | right
  deriving DecidableEq

def Side.other : Side → Side
  | .left => .right
  | .right => .left

structure Sealed where
  key : Bytes
  nonce : Bytes
  plaintext : Bytes
  ciphertext : Bytes
  deriving DecidableEq

/-- A call of `Write` in its loop: the data, what is left of it, and the count so far. -/
structure WriteCall where
  data : Bytes
  rest : Bytes
  n : ℕ
  deriving DecidableEq

structure WriteReturn where
  data : Bytes
  n : ℕ
  failed : Bool
  deriving DecidableEq

inductive ReadError where
  | transport
  | decrypt
  | chunkLength
  deriving DecidableEq

structure Session where
  conn : Side → SecretConnection
  /-- The bytes written to the transport and not read yet. -/
  wire : Side → Bytes
  /-- What an endpoint has sealed. -/
  frames : Side → List Sealed
  /-- The chunks taken from the data of the calls of `Write`. -/
  chunks : Side → List Bytes
  call : Side → Option WriteCall
  returns : Side → List WriteReturn
  /-- The bytes returned by `Read`. -/
  got : Side → Bytes
  /-- The number of frames opened. -/
  opened : Side → ℕ
  readErrors : Side → List ReadError
  /-- The transport from an endpoint has failed, or an endpoint has panicked. -/
  broken : Side → Bool
  /-- `Write` has panicked. -/
  sendDown : Side → Bool
  /-- `Read` has panicked. -/
  recvDown : Side → Bool

/-- What happens in a session. `Write` goes frame by frame; the transport may fail after some bytes
of a frame, and while `Read` waits for one. -/
inductive SecretEvent where
  | write (side : Side) (data : Bytes)
  | frame (side : Side) (fault : Option ℕ)
  | read (side : Side) (size : ℕ)
  | readFault (side : Side) (consumed : ℕ)
  deriving DecidableEq

namespace Session

def handshake (suite : Suite) (leftPriv rightPriv : Bytes) : Option Session := do
  let left ← makeSecretConnection suite leftPriv (suite.pubKey rightPriv)
  let right ← makeSecretConnection suite rightPriv (suite.pubKey leftPriv)
  pure
    { conn := fun side => if side = .left then left else right
      wire := fun _ => []
      frames := fun _ => []
      chunks := fun _ => []
      call := fun _ => none
      returns := fun _ => []
      got := fun _ => []
      opened := fun _ => 0
      readErrors := fun _ => []
      broken := fun _ => false
      sendDown := fun _ => false
      recvDown := fun _ => false }

/-- `Open` of an ideal cipher: it gives what either endpoint has sealed with the key and nonce. -/
def aeadOpen (s : Session) (key nonce ciphertext : Bytes) : Option Bytes :=
  ((s.frames .left ++ s.frames .right).find? fun e =>
    e.key = key ∧ e.nonce = nonce ∧ e.ciphertext = ciphertext).map Sealed.plaintext

def write (s : Session) (side : Side) (data : Bytes) : Session :=
  if s.sendDown side ∨ s.call side ≠ none then s
  else { s with call := update s.call side (some ⟨data, data, 0⟩) }

/-- The loop of `Write`, once, or its return. -/
def frame (suite : Suite) (s : Session) (side : Side) (fault : Option ℕ) : Session :=
  match s.call side with
  | none => s
  | some c =>
    if c.rest = [] then
      { s with
        call := update s.call side none
        returns := update s.returns side (s.returns side ++ [⟨c.data, c.n, false⟩]) }
    else
      let sc := s.conn side
      let chunk := if dataMaxSize < c.rest.length then c.rest.take dataMaxSize else c.rest
      let rest := if dataMaxSize < c.rest.length then c.rest.drop dataMaxSize else []
      let frame := fillFrame sc.sendFrame chunk
      let sealedFrame := suite.aeadSeal sc.sendSecret sc.sendNonce frame
      let s : Session := { s with
        chunks := update s.chunks side (s.chunks side ++ [chunk])
        frames := update s.frames side
          (s.frames side ++ [⟨sc.sendSecret, sc.sendNonce, frame, sealedFrame⟩]) }
      match incrNonce sc.sendNonce with
      | none =>
        { s with
          conn := update s.conn side { sc with sendFrame := frame }
          call := update s.call side none
          broken := update s.broken side true
          sendDown := update s.sendDown side true }
      | some nonce =>
        let s : Session := { s with
          conn := update s.conn side { sc with sendFrame := frame, sendNonce := nonce } }
        match fault with
        | none =>
          { s with
            wire := update s.wire side (s.wire side ++ sealedFrame)
            call := update s.call side (some ⟨c.data, rest, c.n + chunk.length⟩) }
        | some written =>
          { s with
            wire := update s.wire side (s.wire side ++ sealedFrame.take written)
            call := update s.call side none
            returns := update s.returns side (s.returns side ++ [⟨c.data, c.n, true⟩])
            broken := update s.broken side true }

/-- `Read` with a buffer of the given size. It waits while there is no whole frame. -/
def read (s : Session) (side : Side) (size : ℕ) : Session :=
  let sc := s.conn side
  if s.recvDown side then s
  else if 0 < sc.recvBuffer.length then
    { s with
      conn := update s.conn side { sc with recvBuffer := sc.recvBuffer.drop size }
      got := update s.got side (s.got side ++ sc.recvBuffer.take size) }
  else if (s.wire side.other).length < aeadSizeOverhead + totalFrameSize then s
  else
    let sealedFrame := (s.wire side.other).take (aeadSizeOverhead + totalFrameSize)
    let s := { s with
      wire := update s.wire side.other
        ((s.wire side.other).drop (aeadSizeOverhead + totalFrameSize)) }
    match s.aeadOpen sc.recvSecret sc.recvNonce sealedFrame with
    | none =>
      { s with readErrors := update s.readErrors side (s.readErrors side ++ [.decrypt]) }
    | some frame =>
      match incrNonce sc.recvNonce with
      | none =>
        { s with
          broken := update s.broken side.other true
          recvDown := update s.recvDown side true }
      | some nonce =>
        let chunkLength := leValue (frame.take dataLenSize)
        let s := { s with opened := update s.opened side (s.opened side + 1) }
        if dataMaxSize < chunkLength then
          { s with
            conn := update s.conn side { sc with recvNonce := nonce }
            readErrors := update s.readErrors side (s.readErrors side ++ [.chunkLength]) }
        else
          let chunk := (frame.drop dataLenSize).take chunkLength
          { s with
            conn := update s.conn side
              { sc with recvNonce := nonce, recvBuffer := chunk.drop size }
            got := update s.got side (s.got side ++ chunk.take size) }

/-- The transport fails while `Read` has some bytes of a frame, which are lost. -/
def readFault (s : Session) (side : Side) (consumed : ℕ) : Session :=
  if s.recvDown side ∨ 0 < (s.conn side).recvBuffer.length then s
  else
    { s with
      wire := update s.wire side.other ((s.wire side.other).drop consumed)
      readErrors := update s.readErrors side (s.readErrors side ++ [.transport])
      broken := update s.broken side.other true }

def step (suite : Suite) (s : Session) : SecretEvent → Session
  | .write side data => s.write side data
  | .frame side fault => s.frame suite side fault
  | .read side size => s.read side size
  | .readFault side consumed => s.readFault side consumed

def after (suite : Suite) (s : Session) (events : List SecretEvent) : Session :=
  events.foldl (step suite) s

end Session
end CelestiaCore.P2P
