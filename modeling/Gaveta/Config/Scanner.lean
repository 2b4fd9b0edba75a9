import Gaveta.CString

/-! `fscanf` on the lines of a config file. -/

namespace Gaveta

def CString.ofText (text : String) : CString :=
  .ofBuffer (text.toList.map fun letter => letter.toNat.toUInt8)

/-- To be found before the instance that tries all 256 bytes. -/
instance (priority := high) everyByte (p : UInt8 → Prop) [DecidablePred p] (text : List UInt8) :
    Decidable (∀ byte ∈ text, p byte) := List.decidableBAll p text

/-- An open file: what is left of it, and the flag that `feof` reads. -/
structure Stream where
  rest : List UInt8
  eof : Bool
  ended : eof = true → rest = []

namespace Stream

def open_ (content : List UInt8) : Stream where
  rest := content
  eof := false
  ended := by simp

/-- Reads while `p` holds; the read that finds no byte sets the flag. -/
def span (p : UInt8 → Bool) (stream : Stream) : List UInt8 × Stream :=
  (stream.rest.takeWhile p,
    { rest := stream.rest.dropWhile p
      eof := (stream.rest.dropWhile p).isEmpty
      ended := List.isEmpty_iff.mp })

def skip (stream : Stream) : Stream where
  rest := stream.rest.tail
  eof := stream.rest.isEmpty
  ended := fun ended => by rw [List.isEmpty_iff.mp ended, List.tail_nil]

@[ext] theorem ext {left right : Stream} (rest : left.rest = right.rest)
    (eof : left.eof = right.eof) : left = right := by
  cases left
  cases right
  simp_all

@[simp] theorem span_rest (p : UInt8 → Bool) (stream : Stream) :
    (stream.span p).2.rest = stream.rest.dropWhile p := rfl

@[simp] theorem span_eof (p : UInt8 → Bool) (stream : Stream) :
    (stream.span p).2.eof = (stream.rest.dropWhile p).isEmpty := rfl

@[simp] theorem skip_rest (stream : Stream) : stream.skip.rest = stream.rest.tail := rfl

end Stream

def isSpace (byte : UInt8) : Bool := byte = 32 || (9 ≤ byte && byte ≤ 13)

def colon : UInt8 := 58

def skipSpace (stream : Stream) : Stream := (stream.span isSpace).2

@[simp] theorem skipSpace_rest (stream : Stream) :
    (skipSpace stream).rest = stream.rest.dropWhile isSpace := rfl

@[simp] theorem skipSpace_eof (stream : Stream) :
    (skipSpace stream).eof = (stream.rest.dropWhile isSpace).isEmpty := rfl

/-- The stream and `key`, which `fscanf` leaves as it is where it reads no field. -/
structure Scanner where
  stream : Stream
  key : CString

/-- The directive `": %s"`: the bytes for `value`, if it gets that far. -/
def scanValue (stream : Stream) : Stream × Option (List UInt8) :=
  if stream.rest.isEmpty then (stream, none)
  else
    let stream := skipSpace stream.skip
    if stream.rest.isEmpty then (stream, none)
    else
      let word := stream.span fun byte => !isSpace byte
      (word.2, some word.1)

/-- `fscanf(fp, " %[^:]: %s", key, value)` with buffers of any size. -/
def scanFields (scanner : Scanner) : Scanner × Option (List UInt8) :=
  let stream := skipSpace scanner.stream
  match stream.rest.head? with
  | none => ({ scanner with stream := stream }, none)
  | some first =>
      if first = colon then ({ scanner with stream := stream }, none)
      else
        let field := stream.span fun byte => byte ≠ colon
        let value := scanValue field.2
        ({ stream := value.1, key := .ofBuffer field.1 }, value.2)

def stringBufferSize : Nat := 128

def FieldsFit (scanner : Scanner) : Prop :=
  ((skipSpace scanner.stream).rest.takeWhile fun byte => byte ≠ colon).length < stringBufferSize ∧
    ∀ value ∈ (scanFields scanner).2, value.length < stringBufferSize

instance (scanner : Scanner) : Decidable (FieldsFit scanner) :=
  inferInstanceAs (Decidable (_ ∧ _))

/-- `fscanf(fp, " %[^:]: %s", key, value)`, which has no width: a field that is longer than its
buffer leaves no defined result. -/
def scanLine (scanner : Scanner) : Option (Scanner × Option (List UInt8)) :=
  if FieldsFit scanner then some (scanFields scanner) else none

def nextLine (scanner : Scanner) : Scanner := (scanFields scanner).1

end Gaveta
