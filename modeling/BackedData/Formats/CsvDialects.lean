/-
# BackedData.Formats.CsvDialects — a `csv` crate that follows its documentation

What a `csv` crate does between records and structs whose fields are strings, with headers and with records of
unequal lengths, on top of the dialects of its builders.  A header that is not UTF-8 is no header here, as in
the crate: the rows are then read by position.  `documented_ofDialects`: it is as documented, so that what is
proved of every such crate can be run.
-/
import BackedData.Formats.Csv

namespace BackedData.Formats.Csv

open Logic.Delimited

set_option autoImplicit false

/-! ## Strings -/

/-- A field of a `StringRecord`, which must be UTF-8. -/
def fieldString (bytes : List UInt8) : Option String := String.fromUTF8? bytes.toByteArray

theorem fieldString_fieldBytes (s : String) : fieldString (fieldBytes s) = some s := by
  have hbytes : (fieldBytes s).toByteArray = s.toByteArray := by
    refine ByteArray.ext ?_
    rw [List.data_toByteArray, fieldBytes, Array.toArray_toList]
  unfold fieldString String.fromUTF8?
  rw [hbytes, dif_pos s.isValidUTF8]
  rfl

theorem eq_fieldBytes {bytes : List UInt8} {s : String} (h : fieldString bytes = some s) :
    bytes = fieldBytes s := by
  unfold fieldString String.fromUTF8? at h
  split at h
  · obtain rfl := Option.some.inj h
    show bytes = bytes.toByteArray.data.toList
    rw [List.data_toByteArray]
  · cases h

theorem mapM_fieldString (fields : List String) :
    (fields.map fieldBytes).mapM fieldString = some fields := by
  induction fields with
  | nil => rfl
  | cons f fields ih => rw [List.map_cons, List.mapM_cons, fieldString_fieldBytes, ih]; rfl

theorem eq_map_fieldBytes {record : ByteRecord} {fields : List String}
    (h : record.mapM fieldString = some fields) : record = fields.map fieldBytes := by
  induction record generalizing fields with
  | nil => cases h; rfl
  | cons bytes record ih =>
      rw [List.mapM_cons] at h
      cases hs : fieldString bytes with
      | none => rw [hs] at h; cases h
      | some s =>
          cases hrest : record.mapM fieldString with
          | none => rw [hs, hrest] at h; cases h
          | some ss =>
              rw [hs, hrest] at h
              cases h
              rw [eq_fieldBytes hs, ih hrest]
              rfl

/-! ## Rows -/

inductive DeserializeErrorKind where
  | unexpectedEndOfRow
  | missingField (name : String)
  | duplicateField (name : String)
  | invalidLength (len : Nat)
  deriving DecidableEq, Repr

/-- `csv::Error`. -/
inductive CsvError where
  | unequalLengths (expected len : Nat)
  | utf8
  | deserialize (kind : DeserializeErrorKind)
  deriving DecidableEq, Repr

namespace Schema

variable {schema : Schema}

/-- A column is a field of that name, if the struct has one and it is the first such column. -/
def visitColumns (names : List String) :
    List String → List String → List (String × String) → Except DeserializeErrorKind (List (String × String))
  | [], _, found => .ok found
  | h :: hs, fields, found =>
      if h ∈ names ∧ h ∈ found.map Prod.fst then .error (.duplicateField h)
      else
        match fields with
        | [] => .error .unexpectedEndOfRow
        | f :: fs => visitColumns names hs fs (if h ∈ names then found ++ [(h, f)] else found)

/-- Every field of the struct has been found. -/
def assemble (found : List (String × String)) : List String → Except DeserializeErrorKind (List String)
  | [] => .ok []
  | n :: names =>
      match found.lookup n with
      | none => .error (.missingField n)
      | some v => (assemble found names).map (v :: ·)

theorem assemble_length {found : List (String × String)} {names vs : List String}
    (h : assemble found names = .ok vs) : vs.length = names.length := by
  induction names generalizing vs with
  | nil => cases h; rfl
  | cons n names ih =>
      unfold assemble at h
      split at h
      · cases h
      · cases hrest : assemble found names with
        | error e => rw [hrest] at h; cases h
        | ok ws =>
            rw [hrest] at h
            cases h
            exact congrArg Nat.succ (ih hrest)

variable (schema) in
/-- `visit_map`: by the names of the columns. -/
def visitMap (headers fields : List String) : Except DeserializeErrorKind schema.Row :=
  match visitColumns schema.names headers fields [] with
  | .error e => .error e
  | .ok found =>
      match h : assemble found schema.names with
      | .error e => .error e
      | .ok vs => .ok ⟨vs, assemble_length h⟩

variable (schema) in
/-- `visit_seq`: by position. -/
def visitSeq (fields : List String) : Except DeserializeErrorKind schema.Row :=
  if h : schema.names.length ≤ fields.length then
    .ok ⟨fields.take schema.names.length, List.length_take_of_le h⟩
  else .error (.invalidLength fields.length)

variable (schema) in
/-- `StringRecord::deserialize`. -/
def deserialize (headers : Option (List String)) (fields : List String) : Except CsvError schema.Row :=
  (match headers with
    | some hs => schema.visitMap hs fields
    | none => schema.visitSeq fields).mapError .deserialize

/-- Columns under the names that are still to come, each of them once. -/
theorem visitColumns_names (before : List String) {names ns fields : List String}
    {found : List (String × String)} (hnames : names = before ++ ns) (hdistinct : names.Nodup)
    (hfound : found.map Prod.fst = before) (hle : ns.length ≤ fields.length) :
    visitColumns names ns fields found = .ok (found ++ ns.zip fields) := by
  induction ns generalizing before fields found with
  | nil => exact congrArg Except.ok (List.append_nil found).symm
  | cons n ns ih =>
      rcases fields with _ | ⟨f, fields⟩
      · cases hle
      · have hmem : n ∈ names := hnames ▸ List.mem_append_right _ List.mem_cons_self
        have hnew : n ∉ found.map Prod.fst := by
          rw [hnames] at hdistinct
          rw [hfound]
          exact fun h => (List.nodup_append.1 hdistinct).2.2 n h n List.mem_cons_self rfl
        have hnames' : names = (before ++ [n]) ++ ns := by rw [hnames, List.append_assoc]; rfl
        unfold visitColumns
        rw [if_neg (fun h => hnew h.2)]
        dsimp only
        have hfound' : (found ++ [(n, f)]).map Prod.fst = before ++ [n] := by
          rw [List.map_append, hfound]
          rfl
        rw [if_pos hmem, ih (before ++ [n]) hnames' hfound' (Nat.le_of_succ_le_succ hle), List.append_assoc]
        rfl

theorem visitColumns_short {names ns fields : List String} {found : List (String × String)}
    (hlt : fields.length < ns.length) : ∃ e, visitColumns names ns fields found = .error e := by
  induction ns generalizing fields found with
  | nil => cases hlt
  | cons n ns ih =>
      unfold visitColumns
      split
      · exact ⟨_, rfl⟩
      · rcases fields with _ | ⟨f, fields⟩
        · exact ⟨_, rfl⟩
        · exact ih (Nat.lt_of_succ_lt_succ hlt)

theorem lookup_zip {names vs : List String} (hdistinct : names.Nodup) {p : String × String}
    (hp : p ∈ names.zip vs) : (names.zip vs).lookup p.1 = some p.2 := by
  induction names generalizing vs with
  | nil => cases hp
  | cons n names ih =>
      rcases vs with _ | ⟨v, vs⟩
      · cases hp
      · obtain ⟨hnot, hrest⟩ := List.nodup_cons.1 hdistinct
        rw [List.zip_cons_cons] at hp ⊢
        rcases List.mem_cons.1 hp with rfl | hp
        · exact List.lookup_cons_self
        · have hne : (p.1 == n) = false :=
            beq_false_of_ne fun heq => hnot (heq ▸ (List.of_mem_zip (a := p.1) (b := p.2) hp).1)
          rw [List.lookup_cons, hne]
          exact ih hrest hp

theorem assemble_of_lookup {found : List (String × String)} {names vs : List String}
    (hlen : vs.length = names.length) (hlookup : ∀ p ∈ names.zip vs, found.lookup p.1 = some p.2) :
    assemble found names = .ok vs := by
  induction names generalizing vs with
  | nil => rw [List.length_eq_zero_iff.1 hlen]; rfl
  | cons n names ih =>
      rcases vs with _ | ⟨v, vs⟩
      · cases hlen
      · rw [List.zip_cons_cons] at hlookup
        unfold assemble
        rw [hlookup (n, v) List.mem_cons_self]
        dsimp only
        rw [ih (Nat.succ.inj hlen) (fun p hp => hlookup p (List.mem_cons_of_mem _ hp))]
        rfl

theorem visitMap_of_ok {headers fields vs : List String} {found : List (String × String)}
    (hcols : visitColumns schema.names headers fields [] = .ok found)
    (hvs : assemble found schema.names = .ok vs) :
    schema.visitMap headers fields = .ok ⟨vs, assemble_length hvs⟩ := by
  unfold visitMap
  rw [hcols]
  dsimp only
  split
  · rename_i h
    rw [hvs] at h
    cases h
  · rename_i h
    rw [hvs] at h
    cases h
    rfl

/-- **A row is read from its columns** — under its own header, or without one, the row is the first fields
of the record. -/
theorem deserialize_eq_ok_iff {headers : Option (List String)}
    (hheaders : headers = none ∨ headers = some schema.names) {fields : List String} {row : schema.Row} :
    schema.deserialize headers fields = .ok row ↔ row.1 <+: fields := by
  have hlong : ∀ hle : schema.names.length ≤ fields.length, schema.deserialize headers fields
      = .ok ⟨fields.take schema.names.length, List.length_take_of_le hle⟩ := by
    intro hle
    unfold deserialize
    rcases hheaders with rfl | rfl
    · dsimp only
      rw [visitSeq, dif_pos hle]
      rfl
    · have hcols : visitColumns schema.names schema.names fields [] = .ok (schema.names.zip fields) :=
        visitColumns_names [] rfl schema.distinct rfl hle
      have hzip : schema.names.zip (fields.take schema.names.length) = schema.names.zip fields := by
        rw [@List.zip_eq_zip_take_min _ _ schema.names fields, Nat.min_eq_left hle, List.take_length]
      have hvs : assemble (schema.names.zip fields) schema.names = .ok (fields.take schema.names.length) := by
        refine assemble_of_lookup (List.length_take_of_le hle) (fun p hp => ?_)
        exact lookup_zip schema.distinct (hzip ▸ hp)
      dsimp only
      rw [visitMap_of_ok hcols hvs]
      rfl
  by_cases hle : schema.names.length ≤ fields.length
  · rw [hlong hle, List.prefix_iff_eq_take, row.2]
    constructor
    · intro h
      exact (congrArg Subtype.val (Except.ok.inj h)).symm
    · intro h
      exact congrArg Except.ok (Subtype.ext h.symm)
  · have hshort : ∃ e, schema.deserialize headers fields = .error e := by
      unfold deserialize
      rcases hheaders with rfl | rfl
      · dsimp only
        rw [visitSeq, dif_neg hle]
        exact ⟨_, rfl⟩
      · obtain ⟨e, he⟩ : ∃ e, visitColumns schema.names schema.names fields [] = .error e :=
          visitColumns_short (Nat.lt_of_not_le hle)
        dsimp only
        rw [visitMap, he]
        exact ⟨_, rfl⟩
    obtain ⟨e, he⟩ := hshort
    rw [he]
    exact ⟨fun h => (by cases h), fun h => absurd (row.2 ▸ h.length_le) hle⟩

end Schema

/-! ## Reading -/

/-- `read_record` into a `StringRecord`: unless the reader is flexible, as long as the first record. -/
def readRecord (flexible : Bool) (firstFieldCount : Nat) (record : ByteRecord) :
    Except CsvError (List String) :=
  if flexible = false ∧ record.length ≠ firstFieldCount then
    .error (.unequalLengths firstFieldCount record.length)
  else
    match record.mapM fieldString with
    | none => .error .utf8
    | some fields => .ok fields

theorem readRecord_eq_ok_iff {flexible : Bool} {n : Nat} {record : ByteRecord} {fields : List String} :
    readRecord flexible n record = .ok fields ↔
      (flexible = true ∨ record.length = n) ∧ record = fields.map fieldBytes := by
  unfold readRecord
  by_cases hlen : flexible = false ∧ record.length ≠ n
  · rw [if_pos hlen]
    refine ⟨fun h => (by cases h), fun h => ?_⟩
    rcases h.1 with hflex | hn
    · rw [hlen.1] at hflex
      cases hflex
    · exact absurd hn hlen.2
  · have hlen' : flexible = true ∨ record.length = n := by
      cases hf : flexible with
      | true => exact .inl rfl
      | false => exact .inr (Classical.not_not.1 fun hn => hlen ⟨hf, hn⟩)
    rw [if_neg hlen]
    constructor
    · intro h
      refine ⟨hlen', ?_⟩
      split at h
      · cases h
      · cases h
        exact eq_map_fieldBytes ‹_›
    · rintro ⟨-, rfl⟩
      rw [mapM_fieldString]

/-- What a record is read as. -/
def itemOf (schema : Schema) (flexible : Bool) (firstFieldCount : Nat) (headers : Option (List String))
    (record : ByteRecord) : Except CsvError schema.Row :=
  match readRecord flexible firstFieldCount record with
  | .error e => .error e
  | .ok fields => schema.deserialize headers fields

/-- The items of the records of a file.  A header that is not UTF-8 is no header. -/
def itemsOf (b : ReaderBuilder) (schema : Schema) : List ByteRecord → List (Except CsvError schema.Row)
  | [] => []
  | first :: rest =>
      if b.hasHeaders then rest.map (itemOf schema b.flexible first.length (first.mapM fieldString))
      else (first :: rest).map (itemOf schema b.flexible first.length none)

/-! ## Writing -/

/-- `csv::Writer`, before anything is flushed: whether the header is still to be written, the length of
the first record, and the records. -/
structure Writer where
  builder : WriterBuilder
  headerDue : Bool
  firstFieldCount : Option Nat
  records : List ByteRecord
  deriving DecidableEq, Repr

namespace Writer

def new (builder : WriterBuilder) : Writer :=
  { builder, headerDue := builder.hasHeaders, firstFieldCount := none, records := [] }

/-- A record; unless the writer is flexible, as long as the first. -/
def writeRecord (self : Writer) (record : ByteRecord) : Except CsvError Writer :=
  if self.builder.flexible then .ok { self with records := self.records ++ [record] }
  else
    match self.firstFieldCount with
    | none =>
        .ok { self with firstFieldCount := some record.length, records := self.records ++ [record] }
    | some n =>
        if record.length = n then .ok { self with records := self.records ++ [record] }
        else .error (.unequalLengths n record.length)

/-- `Writer::serialize`: the header before the first row. -/
def serialize {schema : Schema} (self : Writer) (row : schema.Row) : Except CsvError Writer :=
  if self.headerDue then
    match self.writeRecord schema.header with
    | .error e => .error e
    | .ok self => { self with headerDue := false }.writeRecord row.record
  else self.writeRecord row.record

/-- A record of the length that all of them have. -/
theorem writeRecord_eq {self : Writer} {k : Nat} {record : ByteRecord} (hlen : record.length = k)
    (hcount : self.firstFieldCount = none ∨ self.firstFieldCount = some k) :
    ∃ count, (count = none ∨ count = some k) ∧ self.writeRecord record
      = .ok { self with firstFieldCount := count, records := self.records ++ [record] } := by
  unfold writeRecord
  split
  · exact ⟨self.firstFieldCount, hcount, rfl⟩
  · rcases hcount with hcount | hcount
    · exact ⟨some k, .inr rfl, by rw [hcount, hlen]⟩
    · exact ⟨some k, .inr rfl, by rw [hcount]; dsimp only; rw [if_pos hlen, ← hcount]⟩

/-- **`Stands b schema before w`** — where a writer stands behind these rows. -/
structure Stands (b : WriterBuilder) {schema : Schema} (before : List schema.Row) (w : Writer) : Prop where
  builder : w.builder = b
  header : w.headerDue = true ↔ b.hasHeaders = true ∧ before = []
  count : w.firstFieldCount = none ∨ w.firstFieldCount = some schema.names.length

variable {schema : Schema} {b : WriterBuilder} {before : List schema.Row} {w : Writer}

theorem stands_new (b : WriterBuilder) : Stands b ([] : List schema.Row) (new b) where
  builder := rfl
  header := ⟨fun h => ⟨h, rfl⟩, fun h => h.1⟩
  count := Or.inl rfl

/-- **The step lemma**: a row is written, behind the header if it is the first. -/
theorem Stands.serialize (h : Stands b before w) (row : schema.Row) :
    ∃ w', w.serialize row = .ok w' ∧ Stands b (before ++ [row]) w' ∧
      w'.records = w.records ++
        ((if b.hasHeaders ∧ before = [] then [schema.header] else []) ++ [row.record]) := by
  have hnot : ¬(b.hasHeaders = true ∧ before ++ [row] = []) := fun hc => by simp at hc
  by_cases hdue : w.headerDue = true
  · obtain ⟨count, hcount, hheader⟩ := writeRecord_eq schema.header_length h.count
    have hbehind : ∃ count', (count' = none ∨ count' = some schema.names.length) ∧
        { w with
          headerDue := false
          firstFieldCount := count
          records := w.records ++ [schema.header] }.writeRecord row.record = .ok
        { w with
          headerDue := false
          firstFieldCount := count'
          records := w.records ++ [schema.header] ++ [row.record] } :=
      writeRecord_eq (Schema.record_length row) hcount
    obtain ⟨count', hcount', hrow⟩ := hbehind
    have hserialize : w.serialize row = .ok
        { w with
          headerDue := false
          firstFieldCount := count'
          records := w.records ++ [schema.header] ++ [row.record] } := by
      unfold Writer.serialize
      rw [if_pos hdue, hheader]
      exact hrow
    refine ⟨_, hserialize, ⟨h.builder, ⟨nofun, fun hc => absurd hc hnot⟩, hcount'⟩, ?_⟩
    rw [if_pos (h.header.mp hdue), ← List.append_assoc]
  · obtain ⟨count, hcount, hrow⟩ := writeRecord_eq (Schema.record_length row) h.count
    have hserialize : w.serialize row = .ok
        { w with firstFieldCount := count, records := w.records ++ [row.record] } := by
      unfold Writer.serialize
      rw [if_neg hdue]
      exact hrow
    refine ⟨_, hserialize, ⟨h.builder, ⟨fun hc => absurd hc hdue, fun hc => absurd hc hnot⟩, hcount⟩, ?_⟩
    rw [if_neg fun hc => hdue (h.header.mpr hc)]
    rfl

/-- **The run lemma.** -/
theorem Stands.run {rows : List schema.Row} {w' : Writer} (h : Stands b before w)
    (hrun : rows.foldlM Writer.serialize w = .ok w') : Stands b (before ++ rows) w' := by
  induction rows generalizing before w with
  | nil =>
      cases hrun
      rw [List.append_nil]
      exact h
  | cons row rows ih =>
      obtain ⟨w₁, hrow, hstands, -⟩ := h.serialize row
      rw [List.foldlM_cons, hrow] at hrun
      have hrest := ih hstands hrun
      rw [List.append_assoc] at hrest
      exact hrest

end Writer

/-! ## The crate -/

/-- What must be quoted, and in the style of numbers whatever is not all digits. -/
def WriterBuilder.shouldQuote (self : WriterBuilder) (f : List UInt8) : Bool :=
  match self.quoteStyle with
  | .always => true
  | .necessary => f.any self.special
  | .nonNumeric => f.any self.special || !f.all fun c => 0x30 ≤ c && c ≤ 0x39
  | .never => false

/-- **A crate that follows its dialects.** -/
def CsvCrate.ofDialects : CsvCrate where
  Error := CsvError
  quotes := WriterBuilder.shouldQuote
  Writer := Csv.Writer
  fromWriter := Csv.Writer.new
  serialize := Csv.Writer.serialize
  flushed w := (w.builder.dialect w.builder.shouldQuote).render w.records
  deserialize b schema text := itemsOf b schema (b.dialect.parse text)

/-- What a record is read as, under the header of the struct or by position. -/
theorem readsAs_itemOf {schema : Schema} {flexible : Bool} {headers : Option (List String)}
    (hheaders : headers = none ∨ headers = some schema.names) (first record : ByteRecord) :
    CsvCrate.ofDialects.ReadsAs first record (itemOf schema flexible first.length headers record) := by
  unfold itemOf
  constructor
  · rintro row rfl hlen
    have hfields : readRecord flexible first.length row.record = .ok row.1 :=
      readRecord_eq_ok_iff.2 ⟨.inr hlen, rfl⟩
    rw [hfields]
    exact (Schema.deserialize_eq_ok_iff hheaders).2 List.prefix_rfl
  · intro row hrow
    cases hfields : readRecord flexible first.length record with
    | error e =>
        rw [hfields] at hrow
        cases hrow
    | ok fields =>
        rw [hfields] at hrow
        rw [(readRecord_eq_ok_iff.1 hfields).2]
        exact ((Schema.deserialize_eq_ok_iff hheaders).1 hrow).map fieldBytes

/-- Item by item. -/
theorem forall₂_itemOf {schema : Schema} {flexible : Bool} {headers : Option (List String)}
    (hheaders : headers = none ∨ headers = some schema.names) (first : ByteRecord) (records : List ByteRecord) :
    List.Forall₂ (CsvCrate.ofDialects.ReadsAs first) records
      (records.map (itemOf schema flexible first.length headers)) := by
  exact List.forall₂_map_right_iff.mpr
    (List.forall₂_same.mpr fun record _ => readsAs_itemOf hheaders first record)

theorem CsvCrate.documented_ofDialects : CsvCrate.ofDialects.Documented where
  always b f h := by
    show b.shouldQuote f = true
    rw [WriterBuilder.shouldQuote, h]
  necessary b f h := by
    show b.shouldQuote f = _
    rw [WriterBuilder.shouldQuote, h]
  nonNumeric b f h hany := by
    show b.shouldQuote f = true
    rw [WriterBuilder.shouldQuote, h, hany]
    rfl
  fromWriter _ := rfl
  serialize b schema before row writer hrun := by
    have hstands : Writer.Stands b before writer := (Writer.stands_new b).run hrun
    obtain ⟨writer', hrow, hstands', hrecords⟩ := hstands.serialize row
    refine ⟨writer', hrow, ?_⟩
    show (writer'.builder.dialect writer'.builder.shouldQuote).render writer'.records =
      (writer.builder.dialect writer.builder.shouldQuote).render writer.records ++ _
    rw [hstands.builder, hstands'.builder, hrecords]
    exact List.flatMap_append
  empty b schema text _ hparse := by
    show itemsOf b schema (b.dialect.parse text) = []
    rw [hparse]
    rfl
  named b schema text records _ hheaders hparse := by
    show List.Forall₂ _ _ (itemsOf b schema (b.dialect.parse text))
    rw [hparse, itemsOf, if_pos hheaders, show schema.header.mapM fieldString = some schema.names from
      mapM_fieldString schema.names]
    exact forall₂_itemOf (.inr rfl) _ _
  positional b schema text first records _ hheaders hparse := by
    have hnot : ¬b.hasHeaders = true := Bool.eq_false_iff.mp hheaders
    show List.Forall₂ _ _ (itemsOf b schema (b.dialect.parse text))
    rw [hparse, itemsOf, if_neg hnot]
    exact forall₂_itemOf (.inl rfl) _ _

end BackedData.Formats.Csv
