import OsxGdbserver.Server

/-!
# Decoding packets and sending replies

The rest of `remote-utils.c`. A decoder reads the packet from a pointer on, and ends in
`error` at the first character that is not a hex digit where one is needed; the NUL at
the end of the packet is such a character.
-/

namespace Gdbserver

open Remote CString

/-- The size of `mem_buf` in `main`. -/
def memBufSize : Nat := 2000

theorem hexDigit_zero : hexDigit 0 = none := by decide +kernel

/-- The byte two hex digits spell. -/
def hexPair (a b : Byte) : Option Byte :=
  (hexDigit a).bind fun nib1 => (hexDigit b).map fun nib2 => UInt8.ofNat (nib1 * 16 + nib2)

/-- `convert_ascii_to_int`: the bytes stored, and whether all `n` were. -/
def convertAsciiToInt (p : List Byte) : Nat → List Byte × Bool
  | 0 => ([], true)
  | n + 1 =>
    match hexPair (deref p) (deref p.tail) with
    | none => ([], false)
    | some b =>
      let rest := convertAsciiToInt (p.drop 2) n
      (b :: rest.1, rest.2)

/-- A hex field up to the character `stop`, in an unsigned type of `w` bits: its value and
the pointer behind `stop`. -/
def decodeField (stop : Byte) (w : Nat) : List Byte → Nat → Option (Nat × List Byte)
  | [], _ => none
  | c :: p, value =>
    if c = stop then some (value, p)
    else (hexDigit c).bind fun nib => decodeField stop w p ((value * 16 + nib) % 2 ^ w)

/-- The loop over the at most `j` digits of the length in an `m` packet. -/
def decodeLength : Nat → List Byte → Nat → Option Nat
  | 0, _, len => some len
  | j + 1, p, len =>
    if deref p = 0 then some len
    else (hexDigit (deref p)).bind fun nib => decodeLength j p.tail (len * 16 + nib)

/-- The bits of a `CORE_ADDR` as a number. -/
def coreAddr (bits : Nat) : Int := (bits : Int).bmod (2 ^ 64)

/-- `decode_m_packet` -/
def decodeReadPacket (p : List Byte) : Option (Int × Nat) :=
  (decodeField (ch ',') 64 p 0).bind fun (bits, q) =>
    (decodeLength 4 q 0).map fun len => (coreAddr bits, len)

/-- `decode_M_packet`: address, length, the bytes stored, and whether all were. -/
def decodeWritePacket (p : List Byte) : Option (Int × Nat × List Byte × Bool) :=
  (decodeField (ch ',') 64 p 0).bind fun (bits, q) =>
    (decodeField (ch ':') 32 q 0).map fun (len, data) =>
      (coreAddr bits, len, convertAsciiToInt data len)

variable {σ : Type}

/-- The end of a decoder that met an invalid digit. -/
def decoded {α : Type} (r : Option α) : Proc (Server σ) α :=
  match r with
  | some a => pure a
  | none => throw invalidDigit

/-- The text and its NUL, stored at the start of `own_buf`. -/
def reply (text : List Byte) : Proc (Server σ) Unit := do
  if text.length < pbufsiz then
    modify fun s =>
      { s with
        link :=
          { s.link with
            session :=
              { s.link.session with
                ownBuf := text ++ 0 :: s.link.session.ownBuf.drop (text.length + 1) } } }
  else
    throw (.fault "own_buf")

def writeOk : Proc (Server σ) Unit := reply (ascii "OK")

def writeEnn : Proc (Server σ) Unit := reply (ascii "E01")

def enableAsyncIo : Proc (Server σ) Unit := modify fun s => { s with sigio := .inputInterrupt }

def disableAsyncIo : Proc (Server σ) Unit := modify fun s => { s with sigio := .ignored }

/-- `remote_open` once the client is there; a client on a serial line gets no `+`. -/
def remoteOpen (serial : Bool) : Proc (Server σ) Unit := do
  if !serial then
    let _ ← onLink (write (ascii "+"))
  disableAsyncIo

variable (k : Kernel σ) (host : Signals.Host)

/-- The loop of `putpkt`. Each round but the last takes one of the `fuel` bytes that are
still to come. -/
def sendFrame (frame : List Byte) : Nat → Proc (Server σ) Int
  | 0 => throw (.fault "fuel")
  | fuel + 1 => do
    if ← onLink (write frame) then
      if (← get).link.session.noAckMode then
        return 1
      else
        let (cc, bytes) ← onLink (read 1)
        if cc ≤ 0 then
          return -1
        else
          let c := deref bytes
          if c = ch '+' then
            return 1
          else
            if c = 3 then
              darwinSendSignal k host.sigint
            sendFrame frame fuel
    else
      return -1

def putpkt : Proc (Server σ) Int := do
  let s ← get
  let buf := cstr s.ownBuf
  modify fun s => s.record (.putpkt buf)
  -- `$`, the text, `#`, two digits and the NUL
  if buf.length + 5 ≤ pbufsiz then
    sendFrame k host (frame buf) (s.link.input.chunks.flatten.length + 1)
  else
    throw (.fault "buf2")

def outreg (regno : Nat) : Proc (Server σ) (List Byte) := do
  let data ← collectRegisterAsString k regno
  let digit3 := if regno / 4096 ≠ 0 then [tohex (regno / 4096 % 16)] else []
  let digit2 := if regno / 256 ≠ 0 then [tohex (regno / 256 % 16)] else []
  return digit3 ++ digit2 ++ [tohex (regno / 16 % 16), tohex (regno % 16), ch ':'] ++ data ++
    [ch ';']

def outregs : List Ppc.RegName → Proc (Server σ) (List Byte)
  | [] => pure []
  | name :: names => do
    let text ← outreg k (Ppc.findRegno name)
    return text ++ (← outregs names)

/-- The part of `prepare_resume_reply` for status `T`. -/
def expediteText : Proc (Server σ) (List Byte) := do
  let regs ← outregs k Ppc.expediteRegsPpc
  let thread ← derefCurrent
  modify fun s =>
    { s with
      threadFromWait := thread.id
      generalThread := thread.id
      oldThreadFromWait := thread.id }
  return regs ++ ascii "thread:" ++ hexText thread.id ++ [ch ';']

def prepareResumeReply : Proc (Server σ) Unit := do
  let s ← get
  let sig := Signals.targetSignalFromHost host s.sig.toNat
  let head := [s.status, tohex (sig / 16 % 16), tohex (sig % 16)]
  if s.status = ch 'T' then
    reply (head ++ (← expediteText k))
  else
    reply head

end Gdbserver
