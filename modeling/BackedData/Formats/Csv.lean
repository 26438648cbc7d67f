/-
# BackedData.Formats.Csv — `CsvCoder`: one configuration for a reader and a writer of rows

`CsvCoder` keeps eleven options and hands them to a `csv::ReaderBuilder` for decoding and to a
`csv::WriterBuilder` for encoding.  The two functions that do so are translated from `formats/csv.rs`; an
option that is not set keeps the builder's own default, and the defaults of the two builders differ.

The `csv` crate is the parameter `CsvCrate`: which fields a writer puts in quotes, what comes to the target
of a writer of rows, and the items that a reader makes of a file.  `CsvCrate.Documented` is what the
documentation of the crate says of these, for structs whose fields are strings, in the terms of
`Logic.Delimited`: a header goes before the first row, a row is a record, and columns are found by the names
in the header, or without one by position.
-/
import BackedData.Logic.Delimited

namespace BackedData.Formats.Csv

open Logic.Delimited

set_option autoImplicit false

/-! ## The builders -/

/-- `csv::Trim`. -/
inductive Trim where
  | none
  | headers
  | fields
  | all
  deriving DecidableEq, Repr

/-- `csv::Terminator`. -/
inductive Terminator where
  | crlf
  | any (b : UInt8)
  deriving DecidableEq, Repr

/-- `csv::QuoteStyle`. -/
inductive QuoteStyle where
  | always
  | necessary
  | nonNumeric
  | never
  deriving DecidableEq, Repr

namespace Terminator

/-- What a reader takes for the end of a record. -/
def equals : Terminator → UInt8 → Bool
  | .crlf, c => c == 0x0D || c == 0x0A
  | .any b, c => c == b

/-- What a writer ends a record with. -/
def written : Terminator → List UInt8
  | .crlf => [0x0D, 0x0A]
  | .any b => [b]

end Terminator

/-- `csv::ReaderBuilder`. -/
structure ReaderBuilder where
  comment : Option UInt8
  delimiter : UInt8
  doubleQuote : Bool
  escape : Option UInt8
  flexible : Bool
  hasHeaders : Bool
  quote : UInt8
  quoting : Bool
  terminator : Terminator
  trim : Trim
  deriving DecidableEq, Repr

/-- `csv::WriterBuilder`. -/
structure WriterBuilder where
  comment : Option UInt8
  delimiter : UInt8
  doubleQuote : Bool
  escape : UInt8
  flexible : Bool
  hasHeaders : Bool
  quote : UInt8
  quoteStyle : QuoteStyle
  terminator : Terminator
  deriving DecidableEq, Repr

namespace ReaderBuilder

/-- `ReaderBuilder::new`: a comma and the double quote, no escape, any line break. -/
def new : ReaderBuilder :=
  { comment := none
    delimiter := 0x2C
    doubleQuote := true
    escape := none
    flexible := false
    hasHeaders := true
    quote := 0x22
    quoting := true
    terminator := .crlf
    trim := .none }

/-- The dialect of the reader; a comment ends at a line feed. -/
def dialect (self : ReaderBuilder) : Reading UInt8 :=
  { delimiter := self.delimiter
    quote := self.quote
    quoting := self.quoting
    doubleQuote := self.doubleQuote
    escape := self.escape
    comment := self.comment
    terminates := self.terminator.equals
    newline := 0x0A }

end ReaderBuilder

namespace WriterBuilder

/-- `WriterBuilder::new`: a comma and the double quote, a backslash as the escape, a line feed. -/
def new : WriterBuilder :=
  { comment := none
    delimiter := 0x2C
    doubleQuote := true
    escape := 0x5C
    flexible := false
    hasHeaders := true
    quote := 0x22
    quoteStyle := .necessary
    terminator := .any 0x0A }

/-- The bytes that a field cannot hold without quotes.  A terminator that is a line break stands for both,
since a reader may end a record at either. -/
def special (self : WriterBuilder) (c : UInt8) : Bool :=
  c == self.delimiter || c == self.quote || (!self.doubleQuote && c == self.escape) ||
    self.comment == some c ||
    match self.terminator with
    | .crlf => c == 0x0D || c == 0x0A
    | .any b => if b = 0x0D ∨ b = 0x0A then c == 0x0D || c == 0x0A else c == b

/-- The dialect of the writer, with its decision what to quote. -/
def dialect (self : WriterBuilder) (quotes : List UInt8 → Bool) : Writing UInt8 :=
  { delimiter := self.delimiter
    quote := self.quote
    escape := self.escape
    doubleQuote := self.doubleQuote
    terminator := self.terminator.written
    quotes }

end WriterBuilder

/-! ## Rows -/

/-- A record, as bytes. -/
abbrev ByteRecord := List (List UInt8)

/-- The bytes of a string field. -/
def fieldBytes (s : String) : List UInt8 := s.toByteArray.data.toList

/-- **`Schema`** — the names of the fields of a struct, in order. -/
structure Schema where
  names : List String
  nonempty : names ≠ []
  distinct : names.Nodup

/-- A struct: one string for each name. -/
def Schema.Row (schema : Schema) : Type :=
  { fields : List String // fields.length = schema.names.length }

namespace Schema

variable {schema : Schema}

/-- What is written for a row. -/
def Row.record (row : schema.Row) : ByteRecord := row.1.map fieldBytes

variable (schema) in
/-- What is written for the header. -/
def header : ByteRecord := schema.names.map fieldBytes

theorem record_length (row : schema.Row) : row.record.length = schema.names.length :=
  (List.length_map fieldBytes).trans row.2

variable (schema) in
theorem header_length : schema.header.length = schema.names.length := List.length_map fieldBytes

theorem record_ne_nil (row : schema.Row) : row.record ≠ [] := by
  intro h
  have hlen := record_length row
  rw [h] at hlen
  exact schema.nonempty (List.length_eq_zero_iff.1 hlen.symm)

theorem header_ne_nil : schema.header ≠ [] := fun h => schema.nonempty (List.map_eq_nil_iff.1 h)

end Schema

/-! ## The crate -/

/-- **`CsvCrate`** — whether a writer quotes a field; its writers, `serialize`, and what has come to the target
behind a `flush`; and the items of `deserialize`. -/
structure CsvCrate where
  Error : Type
  quotes : WriterBuilder → List UInt8 → Bool
  Writer : Type
  fromWriter : WriterBuilder → Writer
  serialize : {schema : Schema} → Writer → schema.Row → Except Error Writer
  flushed : Writer → List UInt8
  deserialize : ReaderBuilder → (schema : Schema) → List UInt8 → List (Except Error schema.Row)

/-- **`csv.ReadsAs first record item`** — what a reader makes of a record, whose columns are the fields of the
struct in order: the row that it was written for, if it is as long as the first record; and no row but of its
first fields. -/
def CsvCrate.ReadsAs (csv : CsvCrate) {schema : Schema} (first record : ByteRecord)
    (item : Except csv.Error schema.Row) : Prop :=
  (∀ row : schema.Row, record = row.record → record.length = first.length → item = .ok row) ∧
    ∀ row : schema.Row, item = .ok row → row.record <+: record

/-- **`csv.Documented`** — reader and writer follow their dialects.  A field is quoted if it has to be: always,
if it holds a special byte, or, for the style of numbers without quotes, at least if it does.  A row is
written as a record, behind a header if it is the first.  The items are those of the records that are not the
header: with the header of the struct by name, and without headers by position. -/
structure CsvCrate.Documented (csv : CsvCrate) : Prop where
  always : ∀ b f, b.quoteStyle = .always → csv.quotes b f = true
  necessary : ∀ b f, b.quoteStyle = .necessary → csv.quotes b f = f.any b.special
  nonNumeric : ∀ b f, b.quoteStyle = .nonNumeric → f.any b.special = true → csv.quotes b f = true
  fromWriter : ∀ b, csv.flushed (csv.fromWriter b) = []
  serialize : ∀ (b : WriterBuilder) (schema : Schema) (before : List schema.Row) (row : schema.Row)
    (writer : csv.Writer), before.foldlM csv.serialize (csv.fromWriter b) = .ok writer →
    ∃ writer', csv.serialize writer row = .ok writer' ∧
      csv.flushed writer' = csv.flushed writer ++ (b.dialect (csv.quotes b)).render
        ((if b.hasHeaders ∧ before = [] then [schema.header] else []) ++ [row.record])
  empty : ∀ b schema text, b.trim = .none → b.dialect.parse text = [] → csv.deserialize b schema text = []
  named : ∀ b (schema : Schema) text records, b.trim = .none → b.hasHeaders = true →
    b.dialect.parse text = schema.header :: records →
    List.Forall₂ (csv.ReadsAs schema.header) records (csv.deserialize b schema text)
  positional : ∀ b schema text first records, b.trim = .none → b.hasHeaders = false →
    b.dialect.parse text = first :: records →
    List.Forall₂ (csv.ReadsAs first) (first :: records) (csv.deserialize b schema text)

/-- Where quotes are not ruled out, a field without them has no special byte. -/
theorem CsvCrate.Documented.not_special {csv : CsvCrate} (h : csv.Documented) {b : WriterBuilder}
    (hstyle : b.quoteStyle ≠ .never) {f : List UInt8} (hf : csv.quotes b f = false) {c : UInt8}
    (hc : c ∈ f) : b.special c = false := by
  have hany : f.any b.special = false := by
    cases hany : f.any b.special with
    | false => rfl
    | true =>
        have hquotes : csv.quotes b f = true := by
          cases hs : b.quoteStyle with
          | always => exact h.always b f hs
          | necessary => exact (h.necessary b f hs).trans hany
          | nonNumeric => exact h.nonNumeric b f hs hany
          | never => exact absurd hs hstyle
        rw [hf] at hquotes
        cases hquotes
  exact Bool.eq_false_iff.2 (List.any_eq_false.1 hany c hc)

/-! ## The coder -/

/-- `CsvCoder`. -/
structure CsvCoder where
  comment : Option UInt8
  delimiter : Option UInt8
  doubleQuote : Option Bool
  escape : Option UInt8
  flexible : Option Bool
  hasHeaders : Option Bool
  quote : Option UInt8
  quoting : Option Bool
  quoteStyle : Option QuoteStyle
  terminator : Option Terminator
  trim : Option Trim
  deriving DecidableEq, Repr

namespace CsvCoder

/-- `CsvCoder::default`: nothing is set. -/
def default : CsvCoder :=
  { comment := none
    delimiter := none
    doubleQuote := none
    escape := none
    flexible := none
    hasHeaders := none
    quote := none
    quoting := none
    quoteStyle := none
    terminator := none
    trim := none }

/-- `reader_builder`: comment and escape are handed over in any case, the others if they are set. -/
def readerBuilder (self : CsvCoder) : ReaderBuilder :=
  let builder := ReaderBuilder.new
  { comment := self.comment
    delimiter := self.delimiter.getD builder.delimiter
    doubleQuote := self.doubleQuote.getD builder.doubleQuote
    escape := self.escape
    flexible := self.flexible.getD builder.flexible
    hasHeaders := self.hasHeaders.getD builder.hasHeaders
    quote := self.quote.getD builder.quote
    quoting := self.quoting.getD builder.quoting
    terminator := self.terminator.getD builder.terminator
    trim := self.trim.getD builder.trim }

/-- `writer_builder`: there is no quoting and no trimming to set, and a quote style instead. -/
def writerBuilder (self : CsvCoder) : WriterBuilder :=
  let builder := WriterBuilder.new
  { comment := self.comment
    delimiter := self.delimiter.getD builder.delimiter
    doubleQuote := self.doubleQuote.getD builder.doubleQuote
    escape := self.escape.getD builder.escape
    flexible := self.flexible.getD builder.flexible
    hasHeaders := self.hasHeaders.getD builder.hasHeaders
    quote := self.quote.getD builder.quote
    quoteStyle := self.quoteStyle.getD builder.quoteStyle
    terminator := self.terminator.getD builder.terminator }

variable (csv : CsvCrate)

/-- `decode`: `collect` goes up to the first error. -/
def decode (self : CsvCoder) (schema : Schema) (source : List UInt8) :
    Except csv.Error (List schema.Row) :=
  (csv.deserialize self.readerBuilder schema source).mapM id

/-- `encode`, to a target that takes all it is given: the bytes it has been given. -/
def encode (self : CsvCoder) {schema : Schema} (data : List schema.Row) : Except csv.Error (List UInt8) :=
  match data.foldlM csv.serialize (csv.fromWriter self.writerBuilder) with
  | .error e => .error e
  | .ok writer => .ok (csv.flushed writer)

end CsvCoder

end BackedData.Formats.Csv
