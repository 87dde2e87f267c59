import OsxGdbserver.Basic
import OsxGdbserver.Lib.Process

/-!
# The connection to the client

The byte layer of `remote-utils.c`: `readchar` with its static buffer, `getpkt`, and
the frame `putpkt` builds. The client is the list of what the calls of `read` will
return; a call asking for fewer bytes leaves the rest of the chunk to the next one.
-/

namespace Remote

/-- The size of the buffer in `readchar`. -/
def bufsiz : Nat := 1024

/-- The value of `PBUFSIZ`, see `pbufsiz_eq`. -/
def pbufsiz : Nat := 2000

/-- What the client will send, and the static buffer of `readchar`. `bufp` is an index
into `buf`, whose bytes after those of the last `read` are zero. -/
structure Input where
  chunks : List (List Byte)
  /-- After the last chunk `read` reports an error and not the end of file. -/
  failed : Bool
  buf : List Byte
  bufp : Nat
  bufcnt : Int
  deriving DecidableEq, Repr

/-- The rest of the connection, with the buffer `packet_loop` allocates. -/
structure Session where
  /-- The buffers handed to `write`, in order. -/
  writes : List (List Byte)
  /-- The number of calls of `write` that will still succeed, if they ever fail. -/
  writable : Option Nat
  noAckMode : Bool
  ownBuf : List Byte
  deriving DecidableEq, Repr

structure Link where
  input : Input
  session : Session
  deriving DecidableEq, Repr

/-- `read` into a buffer of `n` bytes: its result and the bytes. -/
def read (n : Nat) : Proc Link (Int × List Byte) :=
  modifyGet fun l =>
    match l.input.chunks with
    | [] => ((if l.input.failed then -1 else 0, []), l)
    | chunk :: rest =>
      let left := chunk.drop n
      ((((chunk.take n).length : Int), chunk.take n),
        { l with input := { l.input with chunks := if left = [] then rest else left :: rest } })

/-- Whether `write` wrote all of `bytes`. -/
def write (bytes : List Byte) : Proc Link Bool :=
  modifyGet fun l =>
    (l.session.writable != some 0,
      { l with
        session :=
          { l.session with
            writes := l.session.writes ++ [bytes]
            writable := l.session.writable.map (· - 1) } })

/-- `*bufp++ & 0x7f` -/
def nextBuffered : Proc Link Byte :=
  modifyGet fun l =>
    (l.input.buf.getD l.input.bufp 0 &&& 0x7f,
      { l with input := { l.input with bufp := l.input.bufp + 1 } })

def setBufcnt (n : Int) : Proc Link Unit :=
  modify fun l => { l with input := { l.input with bufcnt := n } }

/-- The next character; `none` is the -1 of the source. -/
def readchar : Proc Link (Option Byte) := do
  let bufcnt := (← get).input.bufcnt
  setBufcnt (bufcnt - 1)
  if bufcnt > 0 then
    return some (← nextBuffered)
  else
    let (cnt, bytes) ← read bufsiz
    modify fun l => { l with input := { l.input with buf := bytes, bufcnt := cnt } }
    if cnt ≤ 0 then
      return none
    else
      modify fun l => { l with input := { l.input with bufp := 0, bufcnt := cnt - 1 } }
      return some (← nextBuffered)

/-- The value of a hex digit; `none` where the source calls `error`. -/
def hexDigit (a : Byte) : Option Nat :=
  if 0x30 ≤ a ∧ a ≤ 0x39 then some (a.toNat - 0x30)
  else if 0x61 ≤ a ∧ a ≤ 0x66 then some (a.toNat - 0x61 + 10)
  else none

def invalidDigit : Stop := .error "Reply contains invalid hex digit"

/-- `fromhex` of a character that may be the end of the input. -/
def fromhex {σ : Type} (a : Option Byte) : Proc σ Nat :=
  match a.bind hexDigit with
  | some nib => pure nib
  | none => throw invalidDigit

def tohex (nib : Nat) : Byte :=
  UInt8.ofNat (if nib < 10 then 0x30 + nib else 0x61 + nib - 10)

/-- `buf[i] = b`, where the bytes before `i` have been assigned. -/
def poke (i : Nat) (b : Byte) : Proc Link Unit := do
  if i < pbufsiz then
    modify fun l =>
      { l with
        session :=
          { l.session with
            ownBuf := l.session.ownBuf.take i ++ b :: l.session.ownBuf.drop (i + 1) } }
  else
    throw (.fault "own_buf")

/-- The scan for `$`; `false` at the end of the input. Each character read is one of the
`fuel` pending ones. -/
def scanStart : Nat → Proc Link Bool
  | 0 => throw (.fault "fuel")
  | fuel + 1 => do
    match ← readchar with
    | none => return false
    | some c => if c = 0x24 then return true else scanStart fuel

/-- The body up to `#`: its length and checksum. -/
def readBody : Nat → Nat → Byte → Proc Link (Option (Nat × Byte))
  | 0, _, _ => throw (.fault "fuel")
  | fuel + 1, i, csum => do
    match ← readchar with
    | none => return none
    | some c =>
      if c = 0x23 then
        poke i 0
        return some (i, csum)
      else
        poke i c
        readBody fuel (i + 1) (csum + c)

/-- The outer loop of `getpkt`. -/
def receive : Nat → Proc Link Int
  | 0 => throw (.fault "fuel")
  | fuel + 1 => do
    if ← scanStart (fuel + 1) then
      match ← readBody (fuel + 1) 0 0 with
      | none => return -1
      | some (len, csum) =>
        let c1 ← fromhex (← readchar)
        let c2 ← fromhex (← readchar)
        if csum.toNat = c1 * 16 + c2 then
          return len
        else
          let _ ← write [0x2d]
          receive fuel
    else
      return -1

/-- The bytes of the client that no call of `readchar` has returned. -/
def Input.pending (i : Input) : List Byte :=
  (i.buf.drop i.bufp).take i.bufcnt.toNat ++ i.chunks.flatten

def getpkt : Proc Link Int := do
  let len ← receive ((← get).input.pending.length + 1)
  if len ≥ 0 ∧ !(← get).session.noAckMode then
    let _ ← write [0x2b]
  return len

def checksum (body : List Byte) : Byte := body.sum

/-- The packet `putpkt` builds in `buf2`. -/
def frame (body : List Byte) : List Byte :=
  let csum := (checksum body).toNat
  0x24 :: body ++ [0x23, tohex (csum / 16), tohex (csum % 16)]

end Remote
