/-
# BackedData.Formats.CsvRoundTrip — when what `CsvCoder` encodes decodes to the same rows

The writer's escape is used if quotes are not doubled, and is a backslash if none is set; the reader's is
used if it is set, whether quotes are doubled or not.  So a coder with an escape and doubled quotes writes
escapes that it then reads as such, and a coder without either writes backslashes that it does not
understand.  `decode_encode_iff` says which rows come through: those whose fields survive their quotes.

The header is written in the same way, and columns are found by their names in it; the equivalence is for
a header that survives.
-/
import BackedData.Formats.CsvDialects
import BackedData.Logic.DelimitedLoss
import Mathlib.Data.List.Induction

namespace BackedData.Formats.Csv

open Logic.Delimited

set_option autoImplicit false

/-! ## Rows and records -/

theorem mapM_id_eq_ok_iff {ε α : Type} {items : List (Except ε α)} {xs : List α} :
    items.mapM id = .ok xs ↔ items = xs.map .ok := by
  induction items generalizing xs with
  | nil =>
      rw [List.mapM_nil]
      constructor
      · intro h
        cases h
        rfl
      · intro h
        rw [List.map_eq_nil_iff.mp h.symm]
        rfl
  | cons item items ih =>
      rw [List.mapM_cons]
      cases item with
      | error e =>
          constructor
          · intro h
            cases h
          · intro h
            rcases xs with _ | ⟨x, xs⟩ <;> cases h
      | ok y =>
          constructor
          · intro h
            cases hrest : items.mapM id with
            | error e =>
                rw [hrest] at h
                cases h
            | ok ys =>
                rw [hrest] at h
                cases h
                rw [ih.mp hrest]
                rfl
          · intro h
            rcases xs with _ | ⟨x, xs⟩
            · cases h
            · rw [List.map_cons, List.cons.injEq] at h
              rw [ih.mpr h.2, Except.ok.inj h.1]
              rfl

section ReadsAs

variable {csv : CsvCrate} {schema : Schema} {first : ByteRecord} {rows : List schema.Row}
  {items : List (Except csv.Error schema.Row)}

/-- The records of rows are read as these rows. -/
theorem items_of_records (hfirst : first.length = schema.names.length)
    (h : List.Forall₂ (csv.ReadsAs first) (rows.map Schema.Row.record) items) : items = rows.map .ok := by
  rw [List.forall₂_map_left_iff] at h
  induction h with
  | nil => rfl
  | @cons row item rows items hitem _ ih =>
      rw [ih, hitem.1 row rfl ((Schema.record_length row).trans hfirst.symm)]
      rfl

/-- Rows are the first fields of the records they are read from. -/
theorem records_of_items {records : List ByteRecord}
    (h : List.Forall₂ (csv.ReadsAs first) records (rows.map .ok)) :
    List.Forall₂ (· <+: ·) (rows.map Schema.Row.record) records := by
  rw [List.forall₂_map_right_iff] at h
  rw [List.forall₂_map_left_iff]
  exact h.flip.imp fun row _ hreads => hreads.2 row rfl

end ReadsAs

/-! ## What is written -/

namespace CsvCoder

variable {schema : Schema}

/-- The records that are written: the header first, if there is one to be written and a row to write it
before. -/
def written (self : CsvCoder) (rows : List schema.Row) : List ByteRecord :=
  (if self.writerBuilder.hasHeaders ∧ rows ≠ [] then [schema.header] else []) ++ rows.map Schema.Row.record

/-- With one more row, one more record; and the header, with the first. -/
theorem written_append (self : CsvCoder) (before : List schema.Row) (row : schema.Row) :
    self.written (before ++ [row]) = self.written before ++
      ((if self.writerBuilder.hasHeaders ∧ before = [] then [schema.header] else []) ++ [row.record]) := by
  unfold written
  by_cases hheaders : self.writerBuilder.hasHeaders = true
  · -- the header is there from the first row on
    rcases before with _ | ⟨first, before⟩
    · simp [hheaders]
    · simp [hheaders]
  · simp [hheaders]

/-! ## One configuration, two dialects -/

/-- The bytes that mean something in a configuration: those that are set, or else the defaults. -/
def effectiveBytes (self : CsvCoder) : List UInt8 :=
  [self.writerBuilder.delimiter, self.writerBuilder.quote, self.writerBuilder.escape]
    ++ self.comment.toList ++ self.readerBuilder.terminator.written

/-- **`Regular coder`** — quotes are in use, nothing is trimmed, and the bytes that mean something
differ. -/
structure Regular (coder : CsvCoder) : Prop where
  quoting : coder.quoting ≠ some false
  quoteStyle : coder.quoteStyle ≠ some .never
  trim : coder.trim = none ∨ coder.trim = some .none
  distinct : coder.effectiveBytes.Nodup

/-- The dialect that is read. -/
def reading (self : CsvCoder) : Reading UInt8 := self.readerBuilder.dialect

/-- The dialect that is written. -/
def writing (csv : CsvCrate) (self : CsvCoder) : Writing UInt8 :=
  self.writerBuilder.dialect (csv.quotes self.writerBuilder)

theorem equals_iff (t : Terminator) (c : UInt8) : t.equals c = true ↔ c ∈ t.written := by
  cases t with
  | crlf => simp [Terminator.equals, Terminator.written]
  | any b => simp [Terminator.equals, Terminator.written]

/-- What the reader ends a record at is special to the writer. -/
theorem special_of_equals (self : CsvCoder) {c : UInt8}
    (hc : self.readerBuilder.terminator.equals c = true) : self.writerBuilder.special c = true := by
  refine Bool.or_eq_true_iff.2 (.inr ?_)
  unfold readerBuilder at hc
  unfold writerBuilder
  rcases hterm : self.terminator with _ | _ | b
  · rw [hterm] at hc
    exact hc
  · rw [hterm] at hc
    exact hc
  · rw [hterm] at hc
    obtain rfl : c = b := eq_of_beq hc
    show (if c = 0x0D ∨ c = 0x0A then c == 0x0D || c == 0x0A else c == c) = true
    split
    · rename_i hbreak
      exact hbreak.elim (fun h => by rw [h]; rfl) (fun h => by rw [h]; rfl)
    · exact beq_self_eq_true c

/-- What the writer ends a record with ends it for the reader. -/
theorem equals_of_written (self : CsvCoder) {c : UInt8} (hc : c ∈ self.writerBuilder.terminator.written) :
    self.readerBuilder.terminator.equals c = true := by
  unfold writerBuilder at hc
  unfold readerBuilder
  rcases hterm : self.terminator with _ | t
  · rw [hterm] at hc
    rw [List.mem_singleton.1 hc]
    rfl
  · rw [hterm] at hc
    exact (equals_iff t c).2 hc

/-- A regular coder reads its own lines. -/
theorem Regular.speaks {coder : CsvCoder} (h : coder.Regular) {csv : CsvCrate} (hcsv : csv.Documented) :
    Speaks coder.reading (coder.writing csv) := by
  obtain ⟨hbytes, -, hterm⟩ := List.nodup_append.1 h.distinct
  obtain ⟨hthree, -, hcomment⟩ := List.nodup_append.1 hbytes
  have hplain : ∀ c ∈ [coder.writerBuilder.delimiter, coder.writerBuilder.quote,
      coder.writerBuilder.escape], coder.reading.terminates c = false ∧ coder.reading.comment ≠ some c := by
    intro c hc
    constructor
    · refine Bool.eq_false_iff.2 fun h' => ?_
      exact hterm c (List.mem_append_left _ hc) c ((equals_iff _ _).1 h') rfl
    · exact fun h' => hcomment c hc c (Option.mem_toList.2 h') rfl
  have hdelimiter := hplain coder.writerBuilder.delimiter List.mem_cons_self
  have hquote := hplain coder.writerBuilder.quote (List.mem_cons_of_mem _ List.mem_cons_self)
  have hescape := hplain coder.writerBuilder.escape
    (List.mem_cons_of_mem _ (List.mem_cons_of_mem _ List.mem_cons_self))
  obtain ⟨hfirst, hrest⟩ := List.nodup_cons.1 hthree
  obtain ⟨hsecond, -⟩ := List.nodup_cons.1 hrest
  refine
    { quoting := ?_
      delimiter := rfl
      quote := rfl
      doubleQuote := rfl
      escape := fun e he => ?_
      ends := ?_
      terminates := fun t ht => equals_of_written coder ht
      quote_delimiter := fun heq => hfirst (List.mem_cons.2 (.inl heq.symm))
      quote_terminates := hquote.1
      delimiter_terminates := hdelimiter.1
      escape_quote := fun heq => hsecond (List.mem_singleton.2 heq.symm)
      escape_delimiter := fun heq => hfirst (List.mem_cons_of_mem _ (List.mem_singleton.2 heq.symm))
      escape_terminates := hescape.1
      comment_quote := hquote.2
      comment_delimiter := hdelimiter.2
      bare := fun f hf c hc => ?_ }
  · show coder.quoting.getD true = true
    rcases hq : coder.quoting with _ | b
    · rfl
    · cases b with
      | true => rfl
      | false => exact absurd hq h.quoting
  · show coder.escape.getD _ = e
    rw [show coder.escape = some e from he]
    rfl
  · show coder.writerBuilder.terminator.written ≠ []
    cases coder.writerBuilder.terminator with
    | crlf => exact List.cons_ne_nil _ _
    | any b => exact List.cons_ne_nil _ _
  · have hstyle : coder.writerBuilder.quoteStyle ≠ .never := by
      show coder.quoteStyle.getD .necessary ≠ .never
      rcases hs : coder.quoteStyle with _ | s
      · decide
      · exact fun heq => h.quoteStyle (hs.trans (congrArg some heq))
    have hspecial := hcsv.not_special hstyle hf hc
    have hterminates : coder.reading.terminates c = false := by
      refine Bool.eq_false_iff.2 fun h' => ?_
      rw [special_of_equals coder h'] at hspecial
      cases hspecial
    simp only [WriterBuilder.special, Bool.or_eq_false_iff, beq_eq_false_iff_ne] at hspecial
    exact ⟨hspecial.1.1.1.1, hspecial.1.1.1.2, hterminates, hspecial.1.2⟩

/-! ## Encoding -/

/-- **The rows so far** are what has come to the target. -/
theorem serialize_written {csv : CsvCrate} (hcsv : csv.Documented) (self : CsvCoder) (rows : List schema.Row) :
    ∃ writer, rows.foldlM csv.serialize (csv.fromWriter self.writerBuilder) = .ok writer ∧
      csv.flushed writer = (self.writing csv).render (self.written rows) := by
  induction rows using List.reverseRecOn with
  | nil =>
      have hnone : self.written ([] : List schema.Row) = [] := by simp [written]
      rw [hnone]
      exact ⟨csv.fromWriter self.writerBuilder, rfl, hcsv.fromWriter _⟩
  | append_singleton before row ih =>
      obtain ⟨writer, hbefore, htarget⟩ := ih
      obtain ⟨writer', hrow, hflushed⟩ := hcsv.serialize self.writerBuilder schema before row writer hbefore
      refine ⟨writer', ?_, ?_⟩
      · rw [List.foldlM_append, hbefore]
        exact congrArg (· >>= pure) hrow
      · rw [hflushed, htarget, written_append]
        exact List.flatMap_append.symm

/-- Encoding does not fail. -/
theorem encode_eq {csv : CsvCrate} (hcsv : csv.Documented) (self : CsvCoder) (rows : List schema.Row) :
    self.encode csv rows = .ok ((self.writing csv).render (self.written rows)) := by
  obtain ⟨writer, hwriter, htarget⟩ := serialize_written hcsv self rows
  rw [encode, hwriter, ← htarget]

/-! ## The rows that come through -/

variable (csv : CsvCrate) (self : CsvCoder)

/-- **`FieldSurvives`** — a field without quotes, or one that holds nothing its quotes do not protect:
with doubled quotes, no escape that is set; without, no quote if no escape is set, and no escape if one is,
but for what recovers. -/
def FieldSurvives (f : String) : Prop := Survives self.reading (self.writing csv) (fieldBytes f)

/-- The header survives, if one is written. -/
def HeaderSurvives (rows : List schema.Row) : Prop :=
  self.writerBuilder.hasHeaders = true → rows ≠ [] → ∀ n ∈ schema.names, self.FieldSurvives csv n

/-- Every field of every row survives. -/
def FieldsSurvive (rows : List schema.Row) : Prop :=
  ∀ row ∈ rows, ∀ f ∈ row.1, self.FieldSurvives csv f

/-- What is encoded decodes to the same rows. -/
def RoundTrips (rows : List schema.Row) : Prop :=
  ∃ bytes, self.encode csv rows = .ok bytes ∧ self.decode csv schema bytes = .ok rows

variable {csv self} {rows : List schema.Row}

/-- The rows are the items of what was written. -/
theorem roundTrips_iff (hcsv : csv.Documented) : self.RoundTrips csv rows ↔
    csv.deserialize self.readerBuilder schema ((self.writing csv).render (self.written rows)) =
      rows.map .ok := by
  rw [← mapM_id_eq_ok_iff]
  constructor
  · rintro ⟨bytes, hbytes, hrows⟩
    obtain rfl := Except.ok.inj ((encode_eq hcsv self rows).symm.trans hbytes)
    exact hrows
  · exact fun hrows => ⟨_, encode_eq hcsv self rows, hrows⟩

/-- Nothing is trimmed. -/
theorem Regular.untrimmed (h : self.Regular) : self.readerBuilder.trim = .none := by
  unfold readerBuilder
  rcases h.trim with ht | ht
  · rw [ht]; rfl
  · rw [ht]; rfl

theorem written_ne_nil : ∀ gs ∈ self.written rows, gs ≠ [] := by
  intro gs hgs
  rcases List.mem_append.1 hgs with hgs | hgs
  · split at hgs
    · rw [List.mem_singleton.1 hgs]
      exact Schema.header_ne_nil
    · cases hgs
  · obtain ⟨row, -, rfl⟩ := List.mem_map.1 hgs
    exact Schema.record_ne_nil row

/-- All that is written survives. -/
theorem written_survives (hheader : self.HeaderSurvives csv rows) (hfields : self.FieldsSurvive csv rows) :
    ∀ gs ∈ self.written rows, ∀ f ∈ gs, Survives self.reading (self.writing csv) f := by
  intro gs hgs f hf
  rcases List.mem_append.1 hgs with hgs | hgs
  · split at hgs
    · rename_i hw
      rw [List.mem_singleton.1 hgs] at hf
      obtain ⟨n, hn, rfl⟩ := List.mem_map.1 hf
      exact hheader hw.1 hw.2 n hn
    · cases hgs
  · obtain ⟨row, hrow, rfl⟩ := List.mem_map.1 hgs
    obtain ⟨s, hs, rfl⟩ := List.mem_map.1 hf
    exact hfields row hrow s hs

theorem fieldsSurvive_of_records
    (h : ∀ gs ∈ rows.map Schema.Row.record, ∀ f ∈ gs, Survives self.reading (self.writing csv) f) :
    self.FieldsSurvive csv rows :=
  fun row hrow f hf =>
    h row.record (List.mem_map.2 ⟨row, hrow, rfl⟩) (fieldBytes f) (List.mem_map.2 ⟨f, hf, rfl⟩)

/-- The records that were written are read as rows. -/
theorem items_of_written (hcsv : csv.Documented) (h : self.Regular) {text : List UInt8}
    (hparse : self.reading.parse text = self.written rows) :
    csv.deserialize self.readerBuilder schema text = rows.map .ok := by
  by_cases hnil : rows = []
  · subst hnil
    refine hcsv.empty _ _ _ h.untrimmed (hparse.trans ?_)
    simp [written]
  · by_cases hheaders : self.writerBuilder.hasHeaders = true
    · have hwritten : self.written rows = schema.header :: rows.map Schema.Row.record := by
        unfold written
        rw [if_pos ⟨hheaders, hnil⟩]
        rfl
      exact items_of_records schema.header_length
        (hcsv.named _ _ _ _ h.untrimmed hheaders (hparse.trans hwritten))
    · obtain ⟨row, rest, rfl⟩ := List.exists_cons_of_ne_nil hnil
      have hwritten : self.written (row :: rest) = row.record :: rest.map Schema.Row.record := by
        unfold written
        rw [if_neg fun hc => hheaders hc.1]
        rfl
      exact items_of_records (Schema.record_length row)
        (hcsv.positional _ _ _ _ _ h.untrimmed (Bool.eq_false_iff.mpr hheaders) (hparse.trans hwritten))

/-- **What survives comes through.** -/
theorem roundTrips_of_survive (hcsv : csv.Documented) (h : self.Regular)
    (hheader : self.HeaderSurvives csv rows) (hfields : self.FieldsSurvive csv rows) :
    self.RoundTrips csv rows :=
  (roundTrips_iff hcsv).mpr (items_of_written hcsv h
    (parse_render (h.speaks hcsv) written_ne_nil (written_survives hheader hfields)))

/-- **What comes through survives**, if the header does. -/
theorem survive_of_roundTrips (hcsv : csv.Documented) (h : self.Regular)
    (hheader : self.HeaderSurvives csv rows) (hrows : self.RoundTrips csv rows) :
    self.FieldsSurvive csv rows := by
  have hspeaks := h.speaks hcsv
  have hrecords := survives_of_parse hspeaks (@written_ne_nil _ self rows)
  rw [roundTrips_iff hcsv] at hrows
  unfold written at hrows hrecords
  by_cases hw : self.writerBuilder.hasHeaders = true ∧ rows ≠ []
  · rw [if_pos hw] at hrows hrecords
    have hhead : ∀ f ∈ schema.header, Survives self.reading (self.writing csv) f := by
      intro f hf
      obtain ⟨n, hn, rfl⟩ := List.mem_map.1 hf
      exact hheader hw.1 hw.2 n hn
    obtain ⟨outs, houts⟩ :=
      exists_parse_cons hspeaks Schema.header_ne_nil hhead (rows.map Schema.Row.record)
    rw [List.singleton_append] at hrows hrecords
    have hreads := hcsv.named _ schema _ outs h.untrimmed hw.1 houts
    rw [hrows] at hreads
    rw [houts] at hrecords
    have hall := hrecords (.cons List.prefix_rfl (records_of_items hreads))
    exact fieldsSurvive_of_records (fun gs hgs => hall gs (List.mem_cons_of_mem _ hgs))
  · rw [if_neg hw, List.nil_append] at hrows hrecords
    rcases rows with _ | ⟨row, rest⟩
    · exact fun row hrow => absurd hrow List.not_mem_nil
    · have hheaders : self.writerBuilder.hasHeaders = false :=
        Bool.eq_false_iff.2 fun h => hw ⟨h, List.cons_ne_nil _ _⟩
      refine fieldsSurvive_of_records (hrecords ?_)
      rcases hparse : self.reading.parse ((self.writing csv).render ((row :: rest).map Schema.Row.record))
        with _ | ⟨first, others⟩
      · rw [hcsv.empty _ schema _ h.untrimmed hparse] at hrows
        cases hrows
      · have hreads := hcsv.positional _ schema _ first others h.untrimmed hheaders hparse
        rw [hrows] at hreads
        exact records_of_items hreads

/-- Without an escape, and with doubled quotes, everything comes through. -/
theorem roundTrips_of_doubleQuote (hcsv : csv.Documented) (h : self.Regular) (hescape : self.escape = none)
    (hdouble : self.doubleQuote ≠ some false) (rows : List schema.Row) : self.RoundTrips csv rows := by
  have hsurvives : ∀ f, self.FieldSurvives csv f := by
    intro f _
    have hd : self.reading.doubleQuote = true := by
      show self.doubleQuote.getD true = true
      rcases hd : self.doubleQuote with _ | _ | _
      · rfl
      · exact absurd hd hdouble
      · rfl
    unfold Unharmed
    rw [hd, show self.reading.escape = none from hescape]
    trivial
  exact roundTrips_of_survive hcsv h (fun _ _ n _ => hsurvives n) (fun _ _ f _ => hsurvives f)

/-- **When rows come through** — those whose fields survive do, under a header that survives; and under
such a header no others do. -/
theorem decode_encode_iff (csv : CsvCrate) (hcsv : csv.Documented) (coder : CsvCoder) (h : coder.Regular)
    (schema : Schema) (rows : List schema.Row) :
    (coder.HeaderSurvives csv rows ∧ coder.FieldsSurvive csv rows → coder.RoundTrips csv rows) ∧
      (coder.HeaderSurvives csv rows → coder.RoundTrips csv rows → coder.FieldsSurvive csv rows) :=
  ⟨fun hs => roundTrips_of_survive hcsv h hs.1 hs.2, fun hheader => survive_of_roundTrips hcsv h hheader⟩

end CsvCoder


/-! ## Fields that are lost -/

def pathSchema : Schema := ⟨["path"], by decide, by decide⟩

def pathRow (s : String) : pathSchema.Row := ⟨[s], rfl⟩

/-- A backslash as the escape, and otherwise the defaults. -/
def escaping : CsvCoder := { CsvCoder.default with escape := some 0x5C }

/-- No doubled quotes, and otherwise the defaults. -/
def undoubled : CsvCoder := { CsvCoder.default with doubleQuote := some false }

theorem regular_escaping : escaping.Regular :=
  ⟨by decide, by decide, .inl rfl, by decide⟩

theorem regular_undoubled : undoubled.Regular :=
  ⟨by decide, by decide, .inl rfl, by decide⟩

/-- A backslash in quotes is lost to a reader with an escape; a quote in them is read as the end of the
field, behind a backslash that was not there. -/
theorem fields_lost :
    (CsvCrate.ofDialects.Documented ∧ escaping.Regular ∧
      ¬ escaping.RoundTrips .ofDialects [pathRow "a\\b,c"]) ∧
    (CsvCrate.ofDialects.Documented ∧ undoubled.Regular ∧
      ¬ undoubled.RoundTrips .ofDialects [pathRow "a\"b"]) := by
  refine ⟨⟨CsvCrate.documented_ofDialects, regular_escaping, ?_⟩,
    CsvCrate.documented_ofDialects, regular_undoubled, ?_⟩
  · rintro ⟨bytes, hbytes, hrows⟩
    have hwritten : escaping.encode .ofDialects [pathRow "a\\b,c"]
        = .ok (fieldBytes "path\n\"a\\b,c\"\n") := by rfl
    have hread : escaping.decode .ofDialects pathSchema (fieldBytes "path\n\"a\\b,c\"\n")
        = .ok [pathRow "ab,c"] := by rfl
    obtain rfl := Except.ok.inj (hwritten.symm.trans hbytes)
    have heq := Except.ok.inj (hread.symm.trans hrows)
    exact absurd (congrArg (List.map Subtype.val) heq) (by decide)
  · rintro ⟨bytes, hbytes, hrows⟩
    have hwritten : undoubled.encode .ofDialects [pathRow "a\"b"]
        = .ok (fieldBytes "path\n\"a\\\"b\"\n") := by rfl
    have hread : undoubled.decode .ofDialects pathSchema (fieldBytes "path\n\"a\\\"b\"\n")
        = .ok [pathRow "a\\b\""] := by rfl
    obtain rfl := Except.ok.inj (hwritten.symm.trans hbytes)
    have heq := Except.ok.inj (hread.symm.trans hrows)
    exact absurd (congrArg (List.map Subtype.val) heq) (by decide)

/-- What is quoted without a backslash in it comes through, with a backslash as the escape. -/
theorem decode_encode_escaping : escaping.RoundTrips .ofDialects [pathRow "b,c"] := by
  refine (CsvCoder.decode_encode_iff .ofDialects CsvCrate.documented_ofDialects escaping regular_escaping
    pathSchema [pathRow "b,c"]).1 ⟨fun _ _ n hn _ => ?_, fun row hrow f hf _ => ?_⟩
  · rw [List.mem_singleton.1 hn]
    exact (by decide : (0x5C : UInt8) ∉ fieldBytes "path")
  · rw [List.mem_singleton.1 hrow] at hf
    rw [List.mem_singleton.1 hf]
    exact (by decide : (0x5C : UInt8) ∉ fieldBytes "b,c")

-- a header that is lost: what is left of it is not UTF-8, so the rows are read by position
example : ({ CsvCoder.default with escape := some 0xC3, quoteStyle := some .always }).RoundTrips .ofDialects
    [(⟨["x"], rfl⟩ : (⟨["é"], by decide, by decide⟩ : Schema).Row)] := ⟨_, rfl, rfl⟩

end BackedData.Formats.Csv
