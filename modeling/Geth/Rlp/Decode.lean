import Geth.Rlp.Encode

/-!
# The streaming decoder (`rlp/decode.go`)

`Stream` is the decoding state: the unread input, the input limit, the cached kind of the value
ahead, and the stack of enclosing lists with the position reached in each. Operations return their
result together with the stream they leave, also when they fail: a caller may go on after `EOL`,
and one of them goes on after an error.

The element loop of a slice ends when the element decoder reports the end of the list, so it is
given fuel; `none` is a run that has not ended within it.
-/

namespace Geth.Rlp

open Lib

inductive Kind where
  | byte | string | list
  deriving DecidableEq, Repr

/-- A step of the path in the text of a `decodeError`: `[i]`, `.Name` or the target type. -/
inductive ErrCtx where
  | index (i : Nat)
  | field (name : String)
  | target (typ : GoType)

/-- The errors of the package, with `io.EOF` and `io.ErrUnexpectedEOF`. -/
inductive Err where
  | eol | expectedString | expectedList | canonInt | canonSize | elemTooLarge | valueTooLarge
  | moreThanOneValue | notInList | notAtEOL | uintOverflow | eof | unexpectedEOF
  | invalidBool (n : Nat)
  | decode (msg : String) (typ : GoType) (ctx : List ErrCtx)

def wrapStreamError (err : Err) (typ : GoType) : Err :=
  match err with
  | .canonInt => .decode "non-canonical integer (leading zero bytes)" typ []
  | .canonSize => .decode "non-canonical size information" typ []
  | .expectedList => .decode "expected input list" typ []
  | .expectedString => .decode "expected input string or byte" typ []
  | .uintOverflow => .decode "input string too long" typ []
  | .notAtEOL => .decode "input list has too many elements" typ []
  | err => err

def addErrorContext (err : Err) (ctx : ErrCtx) : Err :=
  match err with
  | .decode msg typ ctxs => .decode msg typ (ctxs ++ [ctx])
  | err => err

structure ListPos where
  pos : Nat
  size : Nat
  deriving DecidableEq, Repr

/-- `Stream`, reading from a `bytes.Reader` whose unread bytes are `r`. `kind = none` is the
source's `-1`; the innermost list is at the head of `stack`. -/
structure Stream where
  r : Bytes
  remaining : Nat
  limited : Bool
  kind : Option Kind
  size : Nat
  byteval : UInt8
  kinderr : Option Err
  stack : List ListPos

namespace Stream

/-- `NewStream(bytes.NewReader(b), uint64(len(b)))`. -/
def new (b : Bytes) : Stream where
  r := b
  remaining := b.length
  limited := true
  kind := none
  size := 0
  byteval := 0
  kinderr := none
  stack := []

/-- `willRead`: rearms `Kind` and books `n` bytes in the innermost list and in the limit. -/
def willRead (s : Stream) (n : Nat) : Option Err × Stream :=
  let s := { s with kind := none }
  let (err, s) : Option Err × Stream :=
    match s.stack with
    | [] => (none, s)
    | tos :: st =>
      if n > tos.size - tos.pos then (some .elemTooLarge, s)
      else (none, { s with stack := { tos with pos := tos.pos + n } :: st })
  match err with
  | some e => (some e, s)
  | none =>
    if s.limited then
      if n > s.remaining then (some .valueTooLarge, s)
      else (none, { s with remaining := s.remaining - n })
    else (none, s)

def readByte (s : Stream) : Except Err UInt8 × Stream :=
  match s.willRead 1 with
  | (some e, s) => (.error e, s)
  | (none, s) =>
    match s.r with
    | [] => (.error .unexpectedEOF, s)
    | b :: r => (.ok b, { s with r := r })

/-- `readFull` of a buffer of `n` bytes. -/
def readFull (s : Stream) (n : Nat) : Except Err Bytes × Stream :=
  match s.willRead n with
  | (some e, s) => (.error e, s)
  | (none, s) =>
    if n ≤ s.r.length then (.ok (s.r.take n), { s with r := s.r.drop n })
    else (.error .unexpectedEOF, { s with r := [] })

def readUint (s : Stream) (size : Nat) : Except Err Nat × Stream :=
  match size with
  | 0 => (.ok 0, { s with kind := none })
  | 1 =>
    match s.readByte with
    | (.error e, s) => (.error e, s)
    | (.ok b, s) => (.ok b.toNat, s)
  | size =>
    match s.readFull size with
    | (.error e, s) => (.error e, s)
    | (.ok bs, s) =>
      if bs.head? = some 0 then (.error .canonSize, s) else (.ok (beNat bs), s)

/-- The branches of `readKind` whose tag byte announces `n` bytes of size information. -/
def readSize (s : Stream) (k : Kind) (n : Nat) : (Kind × Nat × Option Err) × Stream :=
  match s.readUint n with
  | (.error e, s) => ((k, 0, some e), s)
  | (.ok size, s) => ((k, size, if size < 56 then some .canonSize else none), s)

/-- The adjustment of an error at toplevel to the actual EOF. -/
def eofErr (s : Stream) (err : Err) : Err :=
  match s.stack, err with
  | [], .unexpectedEOF => .eof
  | [], .valueTooLarge => .eof
  | _, err => err

/-- The switch of `readKind` on the tag byte `b`. -/
def readTag (s : Stream) (b : UInt8) : (Kind × Nat × Option Err) × Stream :=
  if b < 0x80 then ((.byte, 0, none), { s with byteval := b })
  else if b < 0xB8 then ((.string, (b - 0x80).toNat, none), s)
  else if b < 0xC0 then s.readSize .string (b - 0xB7).toNat
  else if b < 0xF8 then ((.list, (b - 0xC0).toNat, none), s)
  else s.readSize .list (b - 0xF7).toNat

/-- `readKind`: kind, size and error. -/
def readKind (s : Stream) : (Kind × Nat × Option Err) × Stream :=
  match s.readByte with
  | (.error e, s) => ((.byte, 0, some (s.eofErr e)), s)
  | (.ok b, s) => { s with byteval := 0 }.readTag b

/-- The check of `Kind` that the value ahead fits the innermost list, or the input at toplevel. -/
def sizeErr (s : Stream) (size : Nat) : Option Err :=
  match s.stack with
  | [] => if s.limited && size > s.remaining then some .valueTooLarge else none
  | tos :: _ => if size > tos.size - tos.pos then some .elemTooLarge else none

/-- The part of `Kind` that reads the header of the next value and caches what it says. -/
def fetchKind (s : Stream) : Stream :=
  let ((k, size, err), s) := s.readKind
  let s := { s with kind := some k, size := size, kinderr := err }
  match err with
  | some _ => s
  | none => { s with kinderr := s.sizeErr size }

/-- What `Kind` returns once a kind is cached. -/
def cached (s : Stream) : Except Err (Kind × Nat) :=
  match s.kinderr, s.kind with
  | some e, _ => .error e
  | none, some k => .ok (k, s.size)
  | none, none => .ok (.byte, s.size)

/-- `Kind`; the method is called `Kind` in the source. -/
def getKind (s : Stream) : Except Err (Kind × Nat) × Stream :=
  match s.kind with
  | some _ => (s.cached, s)
  | none =>
    let s := { s with kinderr := none }
    match s.stack with
    | tos :: _ =>
      if tos.pos = tos.size then (.error .eol, s) else (s.fetchKind.cached, s.fetchKind)
    | [] => (s.fetchKind.cached, s.fetchKind)

def bytes (s : Stream) : Except Err Bytes × Stream :=
  match s.getKind with
  | (.error e, s) => (.error e, s)
  | (.ok (.byte, _), s) => (.ok [s.byteval], { s with kind := none })
  | (.ok (.string, size), s) =>
    match s.readFull size with
    | (.error e, s) => (.error e, s)
    | (.ok b, s) =>
      match b with
      | [x] => if x < 128 then (.error .canonSize, s) else (.ok [x], s)
      | b => (.ok b, s)
  | (.ok (.list, _), s) => (.error .expectedString, s)

def uint (s : Stream) (maxbits : Nat) : Except Err Nat × Stream :=
  match s.getKind with
  | (.error e, s) => (.error e, s)
  | (.ok (.byte, _), s) =>
    -- Kind is not rearmed on the way out with an error.
    if s.byteval = 0 then (.error .canonInt, s) else (.ok s.byteval.toNat, { s with kind := none })
  | (.ok (.string, size), s) =>
    if size > maxbits / 8 then (.error .uintOverflow, s)
    else
      match s.readUint size with
      | (.error .canonSize, s) => (.error .canonInt, s)
      | (.error e, s) => (.error e, s)
      | (.ok v, s) => if size > 0 ∧ v < 128 then (.error .canonSize, s) else (.ok v, s)
  | (.ok (.list, _), s) => (.error .expectedString, s)

def bool (s : Stream) : Except Err Bool × Stream :=
  match s.uint 8 with
  | (.error e, s) => (.error e, s)
  | (.ok 0, s) => (.ok false, s)
  | (.ok 1, s) => (.ok true, s)
  | (.ok num, s) => (.error (.invalidBool num), s)

def list (s : Stream) : Except Err Nat × Stream :=
  match s.getKind with
  | (.error e, s) => (.error e, s)
  | (.ok (.list, size), s) =>
    (.ok size, { s with stack := ⟨0, size⟩ :: s.stack, kind := none, size := 0 })
  | (.ok _, s) => (.error .expectedList, s)

def listEnd (s : Stream) : Except Err Unit × Stream :=
  match s.stack with
  | [] => (.error .notInList, s)
  | tos :: st =>
    if tos.pos ≠ tos.size then (.error .notAtEOL, s)
    else
      let st := match st with
        | [] => []
        | up :: st => { up with pos := up.pos + tos.size } :: st
      (.ok (), { s with stack := st, kind := none, size := 0 })

end Stream

/-- A decoder run: `none` while it has not ended, else its result and the stream it leaves. -/
abbrev Run (α : Type) := Option (Except Err α × Stream)

/-- Applies `f` to the result of a decoder. -/
def Run.map {α β : Type} (f : α → β) : Run α → Run β
  | none => none
  | some (.error e, s) => some (.error e, s)
  | some (.ok a, s) => some (.ok (f a), s)

/-- Wraps the error of a stream operation and turns its result into a value. -/
def wrapped {α β : Type} (typ : GoType) (f : α → β) : Except Err α × Stream → Except Err β × Stream
  | (.error e, s) => (.error (wrapStreamError e typ), s)
  | (.ok a, s) => (.ok (f a), s)

/-- `decodeSliceElems` from element `acc.length` on: decodes elements until the element decoder
reports the end of the list. -/
def decodeSliceElems {α : Type} (elemdec : Stream → Run α) :
    Nat → List α → Stream → Run (List α)
  | 0, _, _ => none
  | fuel + 1, acc, s =>
    match elemdec s with
    | none => none
    | some (.ok v, s) => decodeSliceElems elemdec fuel (acc ++ [v]) s
    | some (.error .eol, s) => some (.ok acc, s)
    | some (.error e, s) => some (.error (addErrorContext e (.index acc.length)), s)

def decodeListSlice {α : Type} (typ : GoType) (elemdec : Stream → Run α) (fuel : Nat)
    (s : Stream) : Run (List α) :=
  match s.list with
  | (.error e, s) => some (.error (wrapStreamError e typ), s)
  | (.ok size, s) =>
    if size = 0 then
      match s.listEnd with
      | (.error e, s) => some (.error e, s)
      | (.ok _, s) => some (.ok [], s)
    else
      match decodeSliceElems elemdec fuel [] s with
      | none => none
      | some (.error e, s) => some (.error e, s)
      | some (.ok vs, s) =>
        match s.listEnd with
        | (.error e, s) => some (.error e, s)
        | (.ok _, s) => some (.ok vs, s)

/-- The element loop of `decodeListArray`, with `n` elements to go. -/
def decodeArrayElems {α : Type} (typ : GoType) (elemdec : Stream → Run α) :
    Nat → List α → Stream → Run (List α)
  | 0, acc, s => some (.ok acc, s)
  | n + 1, acc, s =>
    match elemdec s with
    | none => none
    | some (.ok v, s) => decodeArrayElems typ elemdec n (acc ++ [v]) s
    | some (.error .eol, s) => some (.error (.decode "input list has too few elements" typ []), s)
    | some (.error e, s) => some (.error (addErrorContext e (.index acc.length)), s)

/-- `decodeListArray` of an array of `vlen` elements. -/
def decodeListArray {α : Type} (typ : GoType) (elemdec : Stream → Run α) (vlen : Nat)
    (s : Stream) : Run (List α) :=
  match s.list with
  | (.error e, s) => some (.error (wrapStreamError e typ), s)
  | (.ok _, s) =>
    match decodeArrayElems typ elemdec vlen [] s with
    | none => none
    | some (.error e, s) => some (.error e, s)
    | some (.ok vs, s) => some (wrapped typ (fun _ => vs) s.listEnd)

/-- `decodeByteArray` of an array of `vlen` bytes. -/
def decodeByteArray (typ : GoType) (vlen : Nat) (s : Stream) : Except Err Bytes × Stream :=
  match s.getKind with
  | (.error e, s) => (.error e, s)
  | (.ok (.byte, _), s) =>
    if vlen = 0 then (.error (.decode "input string too long" typ []), s)
    else if vlen > 1 then (.error (.decode "input string too short" typ []), s)
    else
      -- The error of Uint is dropped; the value is then zero.
      match s.uint 64 with
      | (.error _, s) => (.ok [0], s)
      | (.ok bv, s) => (.ok [byte bv], s)
  | (.ok (.string, size), s) =>
    if vlen < size then (.error (.decode "input string too long" typ []), s)
    else if vlen > size then (.error (.decode "input string too short" typ []), s)
    else
      match s.readFull vlen with
      | (.error e, s) => (.error e, s)
      | (.ok slice, s) =>
        match slice with
        | [x] => if x < 128 then (.error (wrapStreamError .canonSize typ), s) else (.ok [x], s)
        | slice => (.ok slice, s)
  | (.ok (.list, _), s) => (.error (wrapStreamError .expectedString typ), s)

/-- The field loop of `makeStructDecoder`. -/
def decodeFields (typ : GoType) (dec : GoType → Stream → Run GoVal) :
    Fields → List GoVal → Stream → Run (List GoVal)
  | .nil, acc, s => some (.ok acc, s)
  | .cons name t fs, acc, s =>
    match dec t s with
    | none => none
    | some (.ok v, s) => decodeFields typ dec fs (acc ++ [v]) s
    | some (.error .eol, s) => some (.error (.decode "too few elements" typ []), s)
    | some (.error e, s) => some (.error (addErrorContext e (.field name)), s)

/-- The decoder `makeStructDecoder` returns. -/
def decodeStruct (fs : Fields) (dec : GoType → Stream → Run GoVal) (s : Stream) :
    Run (List GoVal) :=
  match s.list with
  | (.error e, s) => some (.error (wrapStreamError e (.struct fs)), s)
  | (.ok _, s) =>
    match decodeFields (.struct fs) dec fs [] s with
    | none => none
    | some (.error e, s) => some (.error e, s)
    | some (.ok vs, s) => some (wrapped (.struct fs) (fun _ => vs) s.listEnd)

def decodeInterface : Nat → Stream → Run Item
  | 0, _ => none
  | fuel + 1, s =>
    match s.getKind with
    | (.error e, s) => some (.error e, s)
    | (.ok (.list, _), s) =>
      (decodeListSlice (.slice .iface) (decodeInterface fuel) fuel s).map .list
    | (.ok _, s) =>
      match s.bytes with
      | (.error e, s) => some (.error e, s)
      | (.ok b, s) => some (.ok (.str b), s)

/-- `makeDecoder`: the decoder of a type. -/
def decoder : Nat → GoType → Stream → Run GoVal
  | 0, _, _ => none
  | fuel + 1, typ, s =>
    match typ with
    | .bool => some (wrapped typ .bool s.bool)
    | .uint k => some (wrapped typ .uint (s.uint k.bits))
    | .string => some (wrapped typ .str s.bytes)
    | .slice t =>
      if t.isByte then some (wrapped typ .str s.bytes)
      else (decodeListSlice typ (decoder fuel t) fuel s).map .list
    | .array n t =>
      if t.isByte then Run.map .str (some (decodeByteArray typ n s))
      else (decodeListArray typ (decoder fuel t) n s).map .list
    | .struct fs => (decodeStruct fs (decoder fuel) s).map .list
    | .iface => (decodeInterface fuel s).map .iface

/-- `(*Stream).Decode`: an error with a path also names the target type. -/
def decode (fuel : Nat) (typ : GoType) (s : Stream) : Run GoVal :=
  match decoder fuel typ s with
  | some (.error (.decode msg t (c :: ctx)), s) =>
    some (.error (.decode msg t (c :: ctx ++ [.target typ])), s)
  | run => run

/-- `DecodeBytes` into a fresh variable of type `typ`. -/
def decodeBytes (fuel : Nat) (typ : GoType) (b : Bytes) : Option (Except Err GoVal) :=
  match decode fuel typ (Stream.new b) with
  | none => none
  | some (.error e, _) => some (.error e)
  | some (.ok v, s) => if 0 < s.r.length then some (.error .moreThanOneValue) else some (.ok v)

end Geth.Rlp
