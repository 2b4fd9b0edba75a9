import Gaveta.Config.Termination

/-! What the scans of `config.c` make of a text that is written line by line. -/

namespace Gaveta

structure Line where
  key : List UInt8
  value : Option (List UInt8)
deriving DecidableEq

def Blank (text : List UInt8) : Prop := ∀ byte ∈ text, isSpace byte = true

instance (text : List UInt8) : Decidable (Blank text) :=
  inferInstanceAs (Decidable (∀ byte ∈ text, isSpace byte = true))

def Ends (text : List UInt8) : Prop := ∀ byte, text.head? = some byte → isSpace byte = true

structure KeyText (key : List UInt8) : Prop where
  starts : ∃ first, key.head? = some first ∧ isSpace first = false
  plain : colon ∉ key
  fits : key.length < stringBufferSize

structure WordText (value : List UInt8) : Prop where
  nonempty : value ≠ []
  plain : ∀ byte ∈ value, isSpace byte = false
  fits : value.length < stringBufferSize

/-- The text begins with a line, and `rest` is what is left behind it. -/
inductive StartsWithLine : List UInt8 → Line → List UInt8 → Prop
  | full {indent key gap value rest : List UInt8} (before : Blank indent) (keyed : KeyText key)
      (between : Blank gap) (word : WordText value) (ends : Ends rest) :
      StartsWithLine (indent ++ (key ++ colon :: (gap ++ (value ++ rest)))) ⟨key, some value⟩ rest
  | bare {indent key gap : List UInt8} (before : Blank indent) (keyed : KeyText key)
      (between : Blank gap) : StartsWithLine (indent ++ (key ++ colon :: gap)) ⟨key, none⟩ []

inductive Lines : List UInt8 → List Line → Prop
  | blank {text : List UInt8} (blank : Blank text) : Lines text []
  | cons {text rest : List UInt8} {line : Line} {lines : List Line}
      (starts : StartsWithLine text line rest) (tail : Lines rest lines) :
      Lines text (line :: lines)

section Scan

variable {scanner : Scanner} {indent key gap value rest : List UInt8} {line : Line}

theorem Blank.dropWhile (blank : Blank indent) (rest : List UInt8) :
    (indent ++ rest).dropWhile isSpace = rest.dropWhile isSpace :=
  List.dropWhile_append_of_pos blank

theorem KeyText.dropWhile (keyed : KeyText key) (rest : List UInt8) :
    (key ++ rest).dropWhile isSpace = key ++ rest := by
  obtain ⟨first, head, visible⟩ := keyed.starts
  cases key with
  | nil => cases head
  | cons byte key =>
      obtain rfl : byte = first := Option.some.inj head
      exact List.dropWhile_cons_of_neg (by simp [visible])

theorem WordText.dropWhile (word : WordText value) (rest : List UInt8) :
    (value ++ rest).dropWhile isSpace = value ++ rest := by
  cases value with
  | nil => exact absurd rfl word.nonempty
  | cons byte value =>
      exact List.dropWhile_cons_of_neg (by simp [word.plain byte List.mem_cons_self])

theorem head_dropWhile_of_ends (ends : Ends rest) :
    rest.dropWhile (fun byte => !isSpace byte) = rest ∧
      rest.takeWhile (fun byte => !isSpace byte) = [] := by
  cases rest with
  | nil => exact ⟨rfl, rfl⟩
  | cons byte rest =>
      have space := ends byte rfl
      exact ⟨List.dropWhile_cons_of_neg (by simp [space]),
        List.takeWhile_cons_of_neg (by simp [space])⟩

theorem scanValue_full {stream : Stream} (left : stream.rest = colon :: (gap ++ (value ++ rest)))
    (between : Blank gap) (word : WordText value) (ends : Ends rest) :
    (scanValue stream).1.rest = rest ∧ (scanValue stream).1.eof = rest.isEmpty ∧
      (scanValue stream).2 = some value := by
  have skipped : (skipSpace stream.skip).rest = value ++ rest := by
    rw [skipSpace_rest, Stream.skip_rest, left, List.tail_cons, between.dropWhile, word.dropWhile]
  have visible : ∀ byte ∈ value, (!isSpace byte) = true := fun byte member => by
    simp [word.plain byte member]
  have behind := head_dropWhile_of_ends ends
  have dropped : (value ++ rest).dropWhile (fun byte => !isSpace byte) = rest := by
    rw [List.dropWhile_append_of_pos visible, behind.1]
  have taken : (value ++ rest).takeWhile (fun byte => !isSpace byte) = value := by
    rw [List.takeWhile_append_of_pos visible, behind.2, List.append_nil]
  have some_ : stream.rest.isEmpty = false := by rw [left]; rfl
  have more : (value ++ rest).isEmpty = false := by simp [word.nonempty]
  rw [scanValue, some_]
  simp only [more, Bool.false_eq_true, ↓reduceIte, Stream.span, skipped, dropped, taken, and_self]

theorem scanValue_bare {stream : Stream} (left : stream.rest = colon :: gap)
    (between : Blank gap) :
    (scanValue stream).1.rest = [] ∧ (scanValue stream).1.eof = true ∧
      (scanValue stream).2 = none := by
  have skipped : (skipSpace stream.skip).rest = [] := by
    rw [skipSpace_rest, Stream.skip_rest, left, List.tail_cons]
    exact List.dropWhile_eq_nil_iff.mpr between
  have ended : (skipSpace stream.skip).eof = true := by
    rw [skipSpace_eof, ← skipSpace_rest, skipped]
    rfl
  have some_ : stream.rest.isEmpty = false := by rw [left]; rfl
  have failed : scanValue stream = (skipSpace stream.skip, none) := by
    rw [scanValue, some_]
    simp only [skipped, List.isEmpty_nil, Bool.false_eq_true, ↓reduceIte]
  rw [failed]
  exact ⟨skipped, ended, rfl⟩

theorem scanFields_key (left : scanner.stream.rest = indent ++ (key ++ colon :: rest))
    (before : Blank indent) (keyed : KeyText key) :
    ∃ stream : Stream, stream.rest = colon :: rest ∧
      (skipSpace scanner.stream).rest.takeWhile (fun byte => byte ≠ colon) = key ∧
      scanFields scanner =
        ({ stream := (scanValue stream).1, key := .ofBuffer key }, (scanValue stream).2) := by
  have skipped : (skipSpace scanner.stream).rest = key ++ colon :: rest := by
    rw [skipSpace_rest, left, before.dropWhile, keyed.dropWhile]
  have inside : ∀ byte ∈ key, decide (byte ≠ colon) = true := by
    rintro byte member
    simp only [decide_eq_true_eq]
    rintro rfl
    exact keyed.plain member
  have taken : (key ++ colon :: rest).takeWhile (fun byte => byte ≠ colon) = key := by
    rw [List.takeWhile_append_of_pos inside, List.takeWhile_cons_of_neg (by simp), List.append_nil]
  have dropped : (key ++ colon :: rest).dropWhile (fun byte => byte ≠ colon) = colon :: rest := by
    rw [List.dropWhile_append_of_pos inside, List.dropWhile_cons_of_neg (by simp)]
  obtain ⟨first, head, _⟩ := keyed.starts
  have start : (skipSpace scanner.stream).rest.head? = some first := by
    rw [skipped, List.head?_append, head, Option.some_or]
  have different : first ≠ colon := by
    rintro rfl
    exact keyed.plain (List.mem_of_head? head)
  have field : ((skipSpace scanner.stream).span fun byte => byte ≠ colon).1 = key := by
    rw [← taken, ← skipped]
    rfl
  refine ⟨((skipSpace scanner.stream).span fun byte => byte ≠ colon).2, ?_, ?_, ?_⟩
  · rw [Stream.span_rest, skipped, dropped]
  · exact field
  · simp only [scanFields, start, if_neg different, field]

theorem StartsWithLine.scan (starts : StartsWithLine scanner.stream.rest line rest) :
    FieldsFit scanner ∧ (scanFields scanner).1.stream.rest = rest ∧
      (scanFields scanner).1.stream.eof = rest.isEmpty ∧
      (scanFields scanner).1.key = .ofBuffer line.key ∧ (scanFields scanner).2 = line.value := by
  generalize left : scanner.stream.rest = text at starts
  cases starts with
  | full before keyed between word ends =>
      obtain ⟨stream, atColon, field, scanned⟩ := scanFields_key left before keyed
      obtain ⟨behind, flag, found⟩ := scanValue_full atColon between word ends
      rw [FieldsFit, field, scanned]
      refine ⟨⟨keyed.fits, ?_⟩, behind, flag, rfl, found⟩
      rw [found]
      intro value member
      obtain rfl := Option.some.inj member
      exact word.fits
  | bare before keyed between =>
      obtain ⟨stream, atColon, field, scanned⟩ := scanFields_key left before keyed
      obtain ⟨behind, flag, found⟩ := scanValue_bare atColon between
      rw [FieldsFit, field, scanned]
      refine ⟨⟨keyed.fits, ?_⟩, behind, flag, rfl, found⟩
      rw [found]
      rintro _ ⟨⟩

theorem StartsWithLine.ne_nil {text : List UInt8} (starts : StartsWithLine text line rest) :
    text ≠ [] := by
  cases starts <;> simp

theorem StartsWithLine.rest_of_bare {text : List UInt8} (starts : StartsWithLine text line rest)
    (bare : line.value = none) : rest = [] := by
  cases starts with
  | full before keyed between word ends => cases bare
  | bare before keyed between => rfl

theorem nextLine_blank (blank : Blank scanner.stream.rest) :
    FieldsFit scanner ∧ (nextLine scanner).stream.rest = [] ∧ (nextLine scanner).stream.eof = true ∧
      (nextLine scanner).key = scanner.key := by
  have skipped : scanner.stream.rest.dropWhile isSpace = [] := List.dropWhile_eq_nil_iff.mpr blank
  simp [FieldsFit, nextLine, scanFields, skipped, stringBufferSize]

end Scan

def lastKey (key : CString) (lines : List Line) : CString :=
  (lines.map fun line => CString.ofBuffer line.key).getLastD key

namespace Lines

variable {scanner : Scanner} {lines : List Line}

theorem within (text : Lines scanner.stream.rest lines) : ¬Overflows scanner := by
  generalize left : scanner.stream.rest = rest at text
  induction text generalizing scanner with
  | blank blank =>
      subst left
      obtain ⟨fits, _, ended, _⟩ := nextLine_blank blank
      rw [overflows_next]
      rintro (longer | overflows)
      · exact longer fits
      · rw [overflows.not_eof] at ended
        cases ended
  | cons starts _ ih =>
      subst left
      rw [overflows_next]
      rintro (longer | overflows)
      · exact longer starts.scan.1
      · exact ih starts.scan.2.1 overflows

theorem free (text : Lines scanner.stream.rest lines) : ¬MeetsColon scanner := by
  generalize left : scanner.stream.rest = rest at text
  induction text generalizing scanner with
  | blank blank =>
      subst left
      have ended := (nextLine_blank blank).2.2.1
      rw [← meetsColon_next]
      intro meets
      rw [meets.not_eof] at ended
      cases ended
  | cons starts _ ih =>
      subst left
      rw [← meetsColon_next]
      exact ih starts.scan.2.1

theorem endsInBrace_iff (text : Lines scanner.stream.rest lines) :
    EndsInBrace scanner ↔
      (truncatedKey defaultKeySize (lastKey scanner.key lines)).contains "\x7d" := by
  generalize left : scanner.stream.rest = rest at text
  induction text generalizing scanner with
  | blank blank =>
      subst left
      obtain ⟨_, _, ended, key⟩ := nextLine_blank blank
      rw [← endsInBrace_next, endsInBrace_of_eof ended, key]
      rfl
  | @cons text rest line lines starts _ ih =>
      subst left
      obtain ⟨_, behind, _, key, _⟩ := starts.scan
      have same : lastKey scanner.key (line :: lines) = lastKey (nextLine scanner).key lines := by
        rw [nextLine, key, lastKey, lastKey, List.map_cons, List.getLastD_cons]
      rw [← endsInBrace_next, same]
      exact ih behind

theorem prepend {text blank : List UInt8} (before : Blank blank) (lined : Lines text lines) :
    Lines (blank ++ text) lines := by
  have both : ∀ {more : List UInt8}, Blank more → Blank (blank ++ more) := fun after byte member =>
    (List.mem_append.mp member).elim (before byte) (after byte)
  cases lined with
  | blank after => exact .blank (both after)
  | cons starts tail =>
      refine .cons ?_ tail
      cases starts with
      | full indent keyed between word ends =>
          rw [← List.append_assoc]
          exact .full (both indent) keyed between word ends
      | bare indent keyed between =>
          rw [← List.append_assoc]
          exact .bare (both indent) keyed between

end Lines

structure ConfigEntry where
  indent : List UInt8
  key : List UInt8
  gap : List UInt8
  value : List UInt8
  close : List UInt8
  indented : Blank indent
  keyed : KeyText key
  spaced : Blank gap
  word : WordText value
  closed : close ≠ [] ∧ Blank close

namespace ConfigEntry

def text (entry : ConfigEntry) : List UInt8 :=
  entry.indent ++ (entry.key ++ colon :: (entry.gap ++ (entry.value ++ entry.close)))

def line (entry : ConfigEntry) : Line := ⟨entry.key, some entry.value⟩

@[simp] theorem line_key (entry : ConfigEntry) : entry.line.key = entry.key := rfl

end ConfigEntry

def dash : UInt8 := 45

def space : UInt8 := 32

def quote : UInt8 := 34

structure Column where
  indent : List UInt8
  name : List UInt8
  type : List UInt8
  indented : indent ≠ [] ∧ Blank indent
  named : name ≠ [] ∧ name.length ≤ 32
  plain : ∀ byte ∈ name, byte ≠ colon ∧ isSpace byte = false ∧ byte ≠ 0
  typed : ∀ byte ∈ type, isSpace byte = false
  fits : type.length + 2 < stringBufferSize

namespace Column

def word (column : Column) : List UInt8 := quote :: (column.type ++ [quote])

def body (column : Column) : List UInt8 :=
  space :: (column.name ++ colon :: space :: column.word)

def text (column : Column) : List UInt8 := column.indent ++ dash :: column.body

/-- A later column, whose dash is read as a part of its key. -/
def line (column : Column) : Line := ⟨dash :: space :: column.name, some column.word⟩

theorem keyText (column : Column) : KeyText column.name where
  starts := by
    obtain ⟨first, rest, split⟩ := List.exists_cons_of_ne_nil column.named.1
    refine ⟨first, by rw [split]; rfl, (column.plain first ?_).2.1⟩
    rw [split]
    exact List.mem_cons_self
  plain := fun member => (column.plain colon member).1 rfl
  fits := Nat.lt_of_le_of_lt column.named.2 (by decide)

theorem dashedText (column : Column) : KeyText (dash :: space :: column.name) where
  starts := ⟨dash, rfl, by decide⟩
  plain := by
    simp only [List.mem_cons, not_or]
    exact ⟨by decide, by decide, column.keyText.plain⟩
  fits := by
    have short := column.named.2
    rw [List.length_cons, List.length_cons, stringBufferSize]
    omega

theorem wordText (column : Column) : WordText column.word where
  nonempty := List.cons_ne_nil _ _
  plain := by
    intro byte member
    simp only [word, List.mem_cons, List.mem_append, List.not_mem_nil, or_false] at member
    rcases member with rfl | member | rfl
    · decide
    · exact column.typed byte member
    · decide
  fits := by
    simpa [word] using column.fits

end Column

theorem blank_space : Blank [space] := by decide

theorem Ends.append {blank : List UInt8} (some_ : blank ≠ []) (before : Blank blank)
    (text : List UInt8) : Ends (blank ++ text) := by
  obtain ⟨first, rest, rfl⟩ := List.exists_cons_of_ne_nil some_
  rintro byte head
  obtain rfl : first = byte := Option.some.inj head
  exact before first List.mem_cons_self

theorem Blank.ends {text : List UInt8} (blank : Blank text) : Ends text :=
  fun byte head => blank byte (List.mem_of_head? head)

section Texts

variable {rest : List UInt8} {lines : List Line}

theorem ends_columns (columns : List Column) (ends : Ends rest) :
    Ends (columns.flatMap Column.text ++ rest) := by
  cases columns with
  | nil => exact ends
  | cons column columns =>
      rw [List.flatMap_cons, Column.text, List.append_assoc, List.append_assoc]
      exact .append column.indented.1 column.indented.2 _

theorem lines_columns (columns : List Column) (ends : Ends rest) (lined : Lines rest lines) :
    Lines (columns.flatMap Column.text ++ rest) (columns.map Column.line ++ lines) := by
  induction columns with
  | nil => exact lined
  | cons column columns ih =>
      have split : (column :: columns).flatMap Column.text ++ rest =
          column.indent ++ ((dash :: space :: column.name) ++ colon :: ([space] ++ (column.word ++
            (columns.flatMap Column.text ++ rest)))) := by
        simp [Column.text, Column.body]
      rw [split]
      exact .cons (.full column.indented.2 column.dashedText blank_space column.wordText
        (ends_columns columns ends)) ih

theorem lines_entries (entries : List ConfigEntry) (lined : Lines rest lines) :
    Lines (entries.flatMap ConfigEntry.text ++ rest) (entries.map ConfigEntry.line ++ lines) := by
  induction entries with
  | nil => exact lined
  | cons entry entries ih =>
      have split : (entry :: entries).flatMap ConfigEntry.text ++ rest =
          entry.indent ++ (entry.key ++ colon :: (entry.gap ++ (entry.value ++
            (entry.close ++ (entries.flatMap ConfigEntry.text ++ rest))))) := by
        simp [ConfigEntry.text]
      rw [split]
      exact .cons (.full entry.indented entry.keyed entry.spaced entry.word
        (.append entry.closed.1 entry.closed.2 _)) (.prepend entry.closed.2 ih)

end Texts

def textBytes (text : String) : List UInt8 := text.toList.map fun letter => letter.toNat.toUInt8

def schemaKey : List UInt8 := textBytes "schema"

theorem schemaKey_text : KeyText schemaKey where
  starts := ⟨115, by decide, by decide⟩
  plain := by decide
  fits := by decide

theorem lines_schema {indent rest : List UInt8} {lines : List Line} (before : Blank indent)
    (first : Column) (others : List Column) (ends : Ends rest) (lined : Lines rest lines) :
    Lines (indent ++ (schemaKey ++ colon :: ((first :: others).flatMap Column.text ++ rest)))
      (⟨schemaKey, some [dash]⟩ :: ⟨first.name, some first.word⟩ ::
        (others.map Column.line ++ lines)) := by
  have split : (first :: others).flatMap Column.text ++ rest =
      first.indent ++ ([dash] ++ ([space] ++ (first.name ++ colon :: ([space] ++ (first.word ++
        (others.flatMap Column.text ++ rest)))))) := by
    simp [Column.text, Column.body]
  have word : WordText [dash] := ⟨by decide, by decide, by decide⟩
  rw [split]
  exact .cons (.full before schemaKey_text first.indented.2 word (.append (by decide) blank_space _))
    (.cons (.full blank_space first.keyText blank_space first.wordText (ends_columns others ends))
      (lines_columns others ends lined))

end Gaveta
