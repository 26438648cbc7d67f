/-
# BackedData.Logic.Delimited — delimited text: records of fields, written in one dialect, read in another

A writer quotes the fields its dialect wants quoted, and escapes the quotes in them, by doubling them or
by an escape in front.  A reader is a machine of a few modes that takes one symbol at a time; between
quotes it reads a doubled quote as one, and whatever follows its escape as it stands.

The two dialects need not be the same.  `Speaks` is what makes a writer's lines readable at all, and
leaves one thing open: that a reader may know an escape the writer does not use, or the other way round.
`Unharmed` says which fields come through quotes in spite of that, and `parse_render` is the round trip
for records of such fields.
-/
import Mathlib.Data.List.Basic
import Mathlib.Data.List.Forall2

namespace Logic.Delimited

set_option autoImplicit false

variable {α : Type}

/-! ## Writing -/

/-- **`Writing α`** — the dialect of a writer.  `quotes` says which fields are written in quotes. -/
structure Writing (α : Type) where
  delimiter : α
  quote : α
  escape : α
  doubleQuote : Bool
  terminator : List α
  quotes : List α → Bool

namespace Writing

variable [DecidableEq α] (w : Writing α)

/-- What is written for one symbol between quotes. -/
def escaped (c : α) : List α :=
  if c = w.quote then [if w.doubleQuote then w.quote else w.escape, w.quote] else [c]

/-- A field between its quotes. -/
def body (f : List α) : List α := f.flatMap w.escaped

/-- A field. -/
def field (f : List α) : List α :=
  if w.quotes f then w.quote :: (w.body f ++ [w.quote]) else f

/-- The fields of a record, with the delimiter between them. -/
def fields : List (List α) → List α
  | [] => []
  | [f] => w.field f
  | f :: g :: fs => w.field f ++ w.delimiter :: fields (g :: fs)

/-- A record with its terminator.  One that would be an empty line is written as a pair of quotes. -/
def record (fs : List (List α)) : List α :=
  (match w.fields fs with
    | [] => [w.quote, w.quote]
    | c :: text => c :: text) ++ w.terminator

/-- Records, one after the other. -/
def render (records : List (List (List α))) : List α := records.flatMap w.record

variable {w}

@[simp] theorem body_nil : w.body [] = [] := rfl

@[simp] theorem body_cons (c : α) (f : List α) : w.body (c :: f) = w.escaped c ++ w.body f :=
  List.flatMap_cons

@[simp] theorem body_append (f g : List α) : w.body (f ++ g) = w.body f ++ w.body g :=
  List.flatMap_append

/-- Every symbol but the quote is written as it is. -/
theorem escaped_of_ne {c : α} (h : c ≠ w.quote) : w.escaped c = [c] := if_neg h

theorem escaped_quote :
    w.escaped w.quote = [if w.doubleQuote then w.quote else w.escape, w.quote] := if_pos rfl

theorem body_replicate {c : α} (h : c ≠ w.quote) (n : Nat) :
    w.body (List.replicate n c) = List.replicate n c := by
  induction n with
  | zero => rfl
  | succ n ih => rw [List.replicate_succ, body_cons, escaped_of_ne h, ih]; rfl

end Writing

/-! ## Reading -/

/-- **`Reading α`** — the dialect of a reader.  Any symbol that `terminates` ends a record; a line that
begins with the comment symbol is passed over, up to the `newline`. -/
structure Reading (α : Type) where
  delimiter : α
  quote : α
  quoting : Bool
  doubleQuote : Bool
  escape : Option α
  comment : Option α
  terminates : α → Bool
  newline : α

/-- Where in a line the reader is. -/
inductive Mode where
  | startRecord
  | startField
  | inField
  | inQuotes
  | escaped
  | afterQuote
  | inComment
  deriving DecidableEq, Repr

/-- What has been read: whole records, whole fields of the next one, and the beginning of a field. -/
structure Parsed (α : Type) where
  mode : Mode
  records : List (List (List α))
  fields : List (List α)
  field : List α
  deriving DecidableEq, Repr

namespace Parsed

variable (p : Parsed α)

/-- Nothing has been read. -/
def new : Parsed α := { mode := .startRecord, records := [], fields := [], field := [] }

/-- One more symbol of the field. -/
def push (c : α) (mode : Mode) : Parsed α := { p with mode, field := p.field ++ [c] }

def endField : Parsed α :=
  { p with mode := .startField, fields := p.fields ++ [p.field], field := [] }

def endRecord : Parsed α :=
  { mode := .startRecord, records := p.records ++ [p.fields ++ [p.field]], fields := [], field := [] }

/-- At the end of the text: a record that has been begun ends there. -/
def finish : List (List (List α)) :=
  match p.mode with
  | .startRecord | .inComment => p.records
  | _ => p.endRecord.records

end Parsed

namespace Reading

variable [DecidableEq α] (r : Reading α)

/-- A symbol outside quotes, where a field goes on. -/
def plain (p : Parsed α) (c : α) : Parsed α :=
  if c = r.delimiter then p.endField
  else if r.terminates c then p.endRecord
  else p.push c .inField

/-- A symbol where a field begins. -/
def first (p : Parsed α) (c : α) : Parsed α :=
  if r.quoting ∧ c = r.quote then { p with mode := .inQuotes } else r.plain p c

/-- One symbol. -/
def step (p : Parsed α) (c : α) : Parsed α :=
  match p.mode with
  | .startRecord =>
      if r.terminates c then p
      else if r.comment = some c then { p with mode := .inComment }
      else r.first p c
  | .startField => r.first p c
  | .inField => r.plain p c
  | .inQuotes =>
      if r.quoting ∧ c = r.quote then { p with mode := .afterQuote }
      else if r.quoting ∧ r.escape = some c then { p with mode := .escaped }
      else p.push c .inQuotes
  | .escaped => p.push c .inQuotes
  | .afterQuote =>
      if r.quoting ∧ r.doubleQuote ∧ c = r.quote then p.push c .inQuotes else r.plain p c
  | .inComment => if c = r.newline then { p with mode := .startRecord } else p

/-- A text. -/
def run (p : Parsed α) (text : List α) : Parsed α := text.foldl r.step p

/-- The records of a text. -/
def parse (text : List α) : List (List (List α)) := (r.run .new text).finish

variable {r}

@[simp] theorem run_nil (p : Parsed α) : r.run p [] = p := rfl

@[simp] theorem run_cons (p : Parsed α) (c : α) (text : List α) :
    r.run p (c :: text) = r.run (r.step p c) text := rfl

theorem run_append (p : Parsed α) (a b : List α) : r.run p (a ++ b) = r.run (r.run p a) b :=
  List.foldl_append

end Reading

/-! ## A reader and a writer of one text -/

/-- **`Speaks r w`** — the lines of the writer are lines to the reader: delimiter, quotes and terminator
are the same and differ from each other, and a field written without quotes has none of them, nor the
comment symbol.  If the reader has an escape, it is the writer's. -/
structure Speaks [DecidableEq α] (r : Reading α) (w : Writing α) : Prop where
  quoting : r.quoting = true
  delimiter : w.delimiter = r.delimiter
  quote : w.quote = r.quote
  doubleQuote : w.doubleQuote = r.doubleQuote
  escape : ∀ e, r.escape = some e → w.escape = e
  ends : w.terminator ≠ []
  terminates : ∀ t ∈ w.terminator, r.terminates t = true
  quote_delimiter : r.quote ≠ r.delimiter
  quote_terminates : r.terminates r.quote = false
  delimiter_terminates : r.terminates r.delimiter = false
  escape_quote : w.escape ≠ r.quote
  escape_delimiter : w.escape ≠ r.delimiter
  escape_terminates : r.terminates w.escape = false
  comment_quote : r.comment ≠ some r.quote
  comment_delimiter : r.comment ≠ some r.delimiter
  bare : ∀ f, w.quotes f = false → ∀ c ∈ f,
    c ≠ r.delimiter ∧ c ≠ r.quote ∧ r.terminates c = false ∧ r.comment ≠ some c

/-- What stands behind the quote in a field of which a reader that has lost `n` escapes makes up for
them: it takes that quote for the closing one, and the rest as it is written. -/
def makesUp (e q : α) : Nat → List α
  | 0 => []
  | n + 1 => List.replicate n e ++ q :: makesUp e q n

/-- **`Recovers e q f`** — an odd run of escapes, and behind it what makes up for half of them. -/
def Recovers (e q : α) (f : List α) : Prop :=
  ∃ u n, e ∉ u ∧ f = u ++ List.replicate (2 * n + 1) e ++ q :: makesUp e q n

/-- **`Unharmed r f`** — a field that comes through quotes.  A reader with an escape takes every escape
in a field for one; a reader that knows neither doubled quotes nor an escape takes a quote in it for the
end. -/
def Unharmed (r : Reading α) (f : List α) : Prop :=
  match r.doubleQuote, r.escape with
  | true, none => True
  | true, some e => e ∉ f
  | false, none => r.quote ∉ f
  | false, some e => e ∉ f ∨ Recovers e r.quote f

/-- **`Survives r w f`** — a field that is read as it was written, in quotes or not. -/
def Survives (r : Reading α) (w : Writing α) (f : List α) : Prop := w.quotes f = true → Unharmed r f

section RoundTrip

variable [DecidableEq α] {r : Reading α} {w : Writing α} {done : List (List (List α))}
  {fs : List (List α)} {buf : List α}

open Reading Writing

/-! ## Between quotes -/

/-- A symbol between quotes that is neither the quote nor the escape. -/
theorem step_quoted {c : α} (hq : c ≠ r.quote) (he : r.escape ≠ some c) :
    r.step ⟨.inQuotes, done, fs, buf⟩ c = ⟨.inQuotes, done, fs, buf ++ [c]⟩ := by
  show (if _ then _ else _) = _
  rw [if_neg (fun h => hq h.2), if_neg (fun h => he h.2)]
  rfl

theorem step_quote (hr : r.quoting = true) :
    r.step ⟨.inQuotes, done, fs, buf⟩ r.quote = ⟨.afterQuote, done, fs, buf⟩ :=
  if_pos ⟨hr, rfl⟩

theorem step_escape {e : α} (hr : r.quoting = true) (he : r.escape = some e) (hq : e ≠ r.quote) :
    r.step ⟨.inQuotes, done, fs, buf⟩ e = ⟨.escaped, done, fs, buf⟩ := by
  show (if _ then _ else _) = _
  rw [if_neg (fun h => hq h.2), if_pos ⟨hr, he⟩]

theorem step_escaped (c : α) :
    r.step ⟨.escaped, done, fs, buf⟩ c = ⟨.inQuotes, done, fs, buf ++ [c]⟩ := rfl

/-- A field that the reader's escape does not occur in, and no quote it cannot read, is read as it was
written. -/
theorem run_body (h : Speaks r w) {f : List α} (he : ∀ e, r.escape = some e → e ∉ f)
    (hq : r.doubleQuote = false → r.escape = none → r.quote ∉ f) :
    r.run ⟨.inQuotes, done, fs, buf⟩ (w.body f) = ⟨.inQuotes, done, fs, buf ++ f⟩ := by
  induction f generalizing buf with
  | nil => rw [body_nil, run_nil, List.append_nil]
  | cons c f ih =>
      have hrest := @ih (buf ++ [c]) (fun e h' hm => he e h' (List.mem_cons_of_mem _ hm))
        (fun h' h'' hm => hq h' h'' (List.mem_cons_of_mem _ hm))
      rw [List.append_assoc] at hrest
      have hce : r.escape ≠ some c := fun h' => he c h' List.mem_cons_self
      rw [body_cons, run_append]
      refine Eq.trans (congrArg (fun p => r.run p (w.body f)) ?_) hrest
      by_cases hc : c = w.quote
      · subst hc
        rw [escaped_quote, h.quote, h.doubleQuote]
        cases hd : r.doubleQuote with
        | true =>
            -- doubled
            rw [if_pos rfl, run_cons, step_quote h.quoting, run_cons, run_nil]
            exact if_pos ⟨h.quoting, hd, rfl⟩
        | false =>
            -- behind an escape, which the reader must know
            rw [if_neg (by decide)]
            cases hs : r.escape with
            | none => exact absurd (h.quote ▸ List.mem_cons_self) (hq hd hs)
            | some e =>
                rw [h.escape e hs, run_cons,
                  step_escape h.quoting hs (h.escape e hs ▸ h.escape_quote), run_cons, run_nil,
                  step_escaped]
      · rw [escaped_of_ne hc, run_cons, run_nil]
        exact step_quoted (h.quote ▸ hc) hce

/-- Of a run of escapes between quotes, every other one is lost. -/
theorem run_escapes {e : α} (hr : r.quoting = true) (he : r.escape = some e) (hq : e ≠ r.quote) (n : Nat) :
    r.run ⟨.inQuotes, done, fs, buf⟩ (List.replicate (2 * n) e)
      = ⟨.inQuotes, done, fs, buf ++ List.replicate n e⟩ := by
  induction n generalizing buf with
  | zero => exact congrArg (Parsed.mk Mode.inQuotes done fs) (List.append_nil buf).symm
  | succ n ih =>
      rw [Nat.mul_succ, List.replicate_succ, List.replicate_succ, run_cons, step_escape hr he hq, run_cons,
        step_escaped, ih, List.replicate_succ, List.append_assoc]
      rfl

/-! ## Outside quotes -/

/-- **`Bare r text`** — no symbol of it ends a field. -/
def Bare (r : Reading α) (text : List α) : Prop :=
  ∀ c ∈ text, c ≠ r.delimiter ∧ r.terminates c = false

theorem step_plain {c : α} (hc : c ≠ r.delimiter ∧ r.terminates c = false) (p : Parsed α) :
    r.plain p c = p.push c .inField := by
  unfold plain
  rw [if_neg hc.1, if_neg (by rw [hc.2]; decide)]

theorem run_inField {text : List α} (ht : Bare r text) :
    r.run ⟨.inField, done, fs, buf⟩ text = ⟨.inField, done, fs, buf ++ text⟩ := by
  induction text generalizing buf with
  | nil => rw [run_nil, List.append_nil]
  | cons c text ih =>
      rw [run_cons, show r.step ⟨.inField, done, fs, buf⟩ c = _ from step_plain (ht c List.mem_cons_self) _]
      refine (ih (fun d hd => ht d (List.mem_cons_of_mem _ hd))).trans ?_
      rw [List.append_assoc]
      rfl

/-- Behind a closing quote the rest of a field is read as it is, if the reader takes no quote for a
doubled one. -/
theorem run_afterQuote {c : α} {text : List α} (hd : r.doubleQuote = false) (ht : Bare r (c :: text)) :
    r.run ⟨.afterQuote, done, fs, buf⟩ (c :: text) = ⟨.inField, done, fs, buf ++ c :: text⟩ := by
  have hstep : r.step ⟨.afterQuote, done, fs, buf⟩ c = ⟨.inField, done, fs, buf ++ [c]⟩ := by
    show (if _ then _ else _) = _
    rw [if_neg (fun h => by rw [hd] at h; exact absurd h.2.1 (by decide))]
    exact step_plain (ht c List.mem_cons_self) _
  rw [run_cons, hstep, run_inField (fun d hd => ht d (List.mem_cons_of_mem _ hd)), List.append_assoc]
  rfl

/-- What `makesUp` holds is read as it is: the body of it, with the closing quote, is the same again
behind one more quote. -/
theorem body_makesUp {e : α} (hq : w.quote = r.quote) (hd : w.doubleQuote = false) (he : w.escape = e)
    (hne : e ≠ r.quote) (n : Nat) :
    w.body (makesUp e r.quote n) ++ [r.quote] = List.replicate n e ++ r.quote :: makesUp e r.quote n := by
  induction n with
  | zero => rfl
  | succ n ih =>
      rw [makesUp, body_append, body_cons, body_replicate (hq ▸ hne), ← hq, escaped_quote, hd, he, hq,
        List.append_assoc, List.append_assoc, ih, List.replicate_succ', List.append_assoc]
      rfl

theorem bare_makesUp (h : Speaks r w) (n : Nat) :
    Bare r (List.replicate n w.escape ++ r.quote :: makesUp w.escape r.quote n) := by
  have hmem : ∀ c ∈ makesUp w.escape r.quote n, c = w.escape ∨ c = r.quote := by
    induction n with
    | zero => exact fun c hc => absurd hc List.not_mem_nil
    | succ n ih =>
        intro c hc
        rcases List.mem_append.1 hc with hc | hc
        · exact .inl (List.eq_of_mem_replicate hc)
        · exact (List.mem_cons.1 hc).elim .inr (ih c)
  intro c hc
  have hcases : c = w.escape ∨ c = r.quote := by
    rcases List.mem_append.1 hc with hc | hc
    · exact .inl (List.eq_of_mem_replicate hc)
    · exact (List.mem_cons.1 hc).elim .inr (hmem c)
  rcases hcases with rfl | rfl
  · exact ⟨h.escape_delimiter, h.escape_terminates⟩
  · exact ⟨h.quote_delimiter, h.quote_terminates⟩

/-! ## Fields and records -/

/-- The modes in which a delimiter ends a field. -/
def Ends (m : Mode) : Prop := m = .startField ∨ m = .inField ∨ m = .afterQuote

theorem step_delimiter (h : Speaks r w) {m : Mode} (hm : Ends m) :
    r.step ⟨m, done, fs, buf⟩ r.delimiter = ⟨.startField, done, fs ++ [buf], []⟩ := by
  have hplain : ∀ m, r.plain ⟨m, done, fs, buf⟩ r.delimiter = ⟨.startField, done, fs ++ [buf], []⟩ :=
    fun _ => if_pos rfl
  rcases hm with rfl | rfl | rfl
  · exact (if_neg (fun hc => h.quote_delimiter hc.2.symm)).trans (hplain _)
  · exact hplain _
  · exact (if_neg (fun hc => h.quote_delimiter hc.2.2.symm)).trans (hplain _)

theorem step_terminator (h : Speaks r w) {m : Mode} (hm : Ends m) {t : α} (ht : r.terminates t = true) :
    r.step ⟨m, done, fs, buf⟩ t = ⟨.startRecord, done ++ [fs ++ [buf]], [], []⟩ := by
  have hne : ∀ {c}, r.terminates c = false → t ≠ c := fun hc heq => by rw [heq, hc] at ht; cases ht
  have hplain : ∀ m, r.plain ⟨m, done, fs, buf⟩ t = ⟨.startRecord, done ++ [fs ++ [buf]], [], []⟩ :=
    fun _ => (if_neg (hne h.delimiter_terminates)).trans (if_pos ht)
  rcases hm with rfl | rfl | rfl
  · exact (if_neg (fun hc => hne h.quote_terminates hc.2)).trans (hplain _)
  · exact hplain _
  · exact (if_neg (fun hc => hne h.quote_terminates hc.2.2)).trans (hplain _)

/-- A quote opens a field. -/
theorem step_open (hr : r.quoting = true) :
    r.step ⟨.startField, done, fs, buf⟩ r.quote = ⟨.inQuotes, done, fs, buf⟩ :=
  if_pos ⟨hr, rfl⟩

/-- An unharmed field is read as it was written, up to and with the closing quote. -/
theorem run_body_quote (h : Speaks r w) {f : List α} (hf : Unharmed r f) :
    ∃ m, Ends m ∧ r.run ⟨.inQuotes, done, fs, []⟩ (w.body f ++ [r.quote]) = ⟨m, done, fs, f⟩ := by
  have hclose : (∀ e, r.escape = some e → e ∉ f) →
      (r.doubleQuote = false → r.escape = none → r.quote ∉ f) →
      ∃ m, Ends m ∧ r.run ⟨.inQuotes, done, fs, []⟩ (w.body f ++ [r.quote]) = ⟨m, done, fs, f⟩ := by
    intro he hq
    refine ⟨.afterQuote, .inr (.inr rfl), ?_⟩
    rw [run_append, run_body h he hq, run_cons, run_nil, step_quote h.quoting]
    rfl
  unfold Unharmed at hf
  cases hd : r.doubleQuote with
  | true =>
      refine hclose (fun e he => ?_) (fun h' => by rw [hd] at h'; cases h')
      rw [hd, he] at hf
      exact hf
  | false =>
      cases hs : r.escape with
      | none =>
          rw [hd, hs] at hf
          exact hclose (fun e he => by rw [hs] at he; cases he) (fun _ _ => hf)
      | some e =>
          rw [hd, hs] at hf
          obtain hf | ⟨u, n, hu, rfl⟩ := hf
          · exact hclose (fun e' he => by rw [hs] at he; cases he; exact hf)
              (fun _ h' => by rw [hs] at h'; cases h')
          · -- the run of escapes loses half of itself, the quote behind it closes, the rest makes up
            obtain rfl := h.escape e hs
            refine ⟨.inField, .inr (.inl rfl), ?_⟩
            have hbody : w.body (u ++ List.replicate (2 * n + 1) w.escape
                ++ r.quote :: makesUp w.escape r.quote n) ++ [r.quote]
                = w.body u ++ (List.replicate (2 * (n + 1)) w.escape
                  ++ r.quote :: (List.replicate n w.escape ++ r.quote :: makesUp w.escape r.quote n)) := by
              rw [body_append, body_append, body_cons, body_replicate (h.quote ▸ h.escape_quote), ← h.quote,
                escaped_quote, h.doubleQuote, hd, h.quote, List.append_assoc, List.append_assoc,
                List.append_assoc, body_makesUp h.quote (h.doubleQuote.trans hd) rfl h.escape_quote,
                Nat.mul_succ, List.replicate_succ' (n := 2 * n + 1), List.append_assoc]
              rfl
            have hbare := bare_makesUp h n
            rw [hbody, run_append, run_body h (fun e he => by rw [hs] at he; cases he; exact hu)
              (fun _ h' => by rw [hs] at h'; cases h'), run_append, run_escapes h.quoting hs h.escape_quote,
              run_cons, step_quote h.quoting]
            generalize hraw : List.replicate n w.escape ++ r.quote :: makesUp w.escape r.quote n = raw at hbare
            rcases raw with _ | ⟨c, raw⟩
            · exact absurd hraw (List.append_ne_nil_of_right_ne_nil _ (List.cons_ne_nil _ _))
            · rw [run_afterQuote hd hbare, ← hraw]
              refine congrArg (Parsed.mk Mode.inField done fs) ?_
              rw [List.nil_append, List.append_assoc, ← List.append_assoc (List.replicate (n + 1) _),
                List.replicate_append_replicate, List.append_assoc, show n + 1 + n = 2 * n + 1 by omega]

theorem field_of_quotes {f : List α} (hf : w.quotes f = true) :
    w.field f = w.quote :: (w.body f ++ [w.quote]) := if_pos hf

theorem field_of_bare {f : List α} (hf : w.quotes f = false) : w.field f = f :=
  if_neg (by rw [hf]; decide)

variable (done fs) in
theorem run_field (h : Speaks r w) {f : List α} (hf : Survives r w f) :
    ∃ m, Ends m ∧ r.run ⟨.startField, done, fs, []⟩ (w.field f) = ⟨m, done, fs, f⟩ := by
  cases hquotes : w.quotes f with
  | true =>
      rw [field_of_quotes hquotes, h.quote, run_cons, step_open h.quoting]
      exact run_body_quote h (hf hquotes)
  | false =>
      have hbare := h.bare f hquotes
      rw [field_of_bare hquotes]
      rcases f with _ | ⟨c, text⟩
      · exact ⟨.startField, .inl rfl, rfl⟩
      · have hplain : ∀ d ∈ c :: text, d ≠ r.delimiter ∧ r.terminates d = false :=
          fun d hd => ⟨(hbare d hd).1, (hbare d hd).2.2.1⟩
        have hstep : r.step ⟨.startField, done, fs, []⟩ c = ⟨.inField, done, fs, [c]⟩ :=
          (if_neg (fun hc => (hbare c List.mem_cons_self).2.1 hc.2)).trans
            (step_plain (hplain c List.mem_cons_self) _)
        refine ⟨.inField, .inr (.inl rfl), ?_⟩
        rw [run_cons, hstep, run_inField (fun d hd => hplain d (List.mem_cons_of_mem _ hd))]
        rfl

variable (done fs) in
/-- The fields of a record, up to the terminator: all but the last are ended. -/
theorem run_fields (h : Speaks r w) {gs : List (List α)} (hne : gs ≠ [])
    (hgs : ∀ f ∈ gs, Survives r w f) :
    ∃ m before last, Ends m ∧ gs = before ++ [last] ∧
      r.run ⟨.startField, done, fs, []⟩ (w.fields gs) = ⟨m, done, fs ++ before, last⟩ := by
  induction gs generalizing fs with
  | nil => exact absurd rfl hne
  | cons f gs ih =>
      obtain ⟨m, hm, hrun⟩ := run_field done fs h (hgs f List.mem_cons_self)
      rcases gs with _ | ⟨g, gs⟩
      · refine ⟨m, [], f, hm, rfl, ?_⟩
        rw [Writing.fields, hrun, List.append_nil]
      · obtain ⟨m', before, last, hm', heq, hrest⟩ := ih (fs ++ [f]) (List.cons_ne_nil _ _)
          (fun f' hf' => hgs f' (List.mem_cons_of_mem _ hf'))
        refine ⟨m', f :: before, last, hm', congrArg (f :: ·) heq, ?_⟩
        rw [Writing.fields, run_append, hrun, run_cons, h.delimiter, step_delimiter h hm, hrest,
          List.append_assoc]
        rfl

/-- A line does not begin as a comment or an empty line does. -/
theorem fields_head (h : Speaks r w) {gs : List (List α)} {c : α} {text : List α}
    (hc : w.fields gs = c :: text) : r.terminates c = false ∧ r.comment ≠ some c := by
  have hquote : r.terminates w.quote = false ∧ r.comment ≠ some w.quote :=
    h.quote.symm ▸ ⟨h.quote_terminates, h.comment_quote⟩
  have hfield : ∀ {f c text}, w.field f = c :: text → r.terminates c = false ∧ r.comment ≠ some c := by
    intro f c text hf
    cases hquotes : w.quotes f with
    | true =>
        rw [field_of_quotes hquotes] at hf
        cases hf
        exact hquote
    | false =>
        rw [field_of_bare hquotes] at hf
        have hbare := h.bare f hquotes c (hf ▸ List.mem_cons_self)
        exact ⟨hbare.2.2.1, hbare.2.2.2⟩
  rcases gs with _ | ⟨f, _ | ⟨g, gs⟩⟩
  · cases hc
  · exact hfield hc
  · rw [Writing.fields] at hc
    rcases hf : w.field f with _ | ⟨d, rest⟩
    · rw [hf] at hc
      cases hc
      exact h.delimiter.symm ▸ ⟨h.delimiter_terminates, h.comment_delimiter⟩
    · rw [hf] at hc
      cases hc
      exact hfield hf

/-- At such a beginning, a record begins as a field does. -/
theorem run_startRecord {c : α} {text : List α} (hc : r.terminates c = false ∧ r.comment ≠ some c) :
    r.run ⟨.startRecord, done, [], []⟩ (c :: text) = r.run ⟨.startField, done, [], []⟩ (c :: text) := by
  have hstep : r.step ⟨.startRecord, done, [], []⟩ c = r.step ⟨.startField, done, [], []⟩ c := by
    show (if _ then _ else _) = _
    rw [if_neg (by rw [hc.1]; decide), if_neg hc.2]
    show r.first _ c = r.first _ c
    unfold first plain
    rfl
  rw [run_cons, run_cons, hstep]

/-- The line of a record is what a reader at the beginning of a field makes of its fields, or of a pair
of quotes. -/
theorem run_line (h : Speaks r w) (gs : List (List α)) (more : List α) :
    r.run ⟨.startRecord, done, [], []⟩ (w.record gs ++ more)
      = r.run (if w.fields gs = [] then ⟨.afterQuote, done, [], []⟩
          else r.run ⟨.startField, done, [], []⟩ (w.fields gs)) (w.terminator ++ more) := by
  unfold Writing.record
  rcases hf : w.fields gs with _ | ⟨c, text⟩
  · rw [if_pos rfl, h.quote, List.append_assoc]
    refine (run_startRecord ⟨h.quote_terminates, h.comment_quote⟩).trans ?_
    rw [run_cons, step_open h.quoting]
    show r.run (r.step _ _) _ = _
    rw [step_quote h.quoting]
    rfl
  · rw [if_neg (List.cons_ne_nil _ _), List.append_assoc, ← run_append]
    exact run_startRecord (fields_head h hf)

/-- A terminator ends the record; what is left of it is an empty line. -/
theorem run_terminator (h : Speaks r w) {m : Mode} (hm : Ends m) :
    r.run ⟨m, done, fs, buf⟩ w.terminator = ⟨.startRecord, done ++ [fs ++ [buf]], [], []⟩ := by
  have hskip : ∀ {ts : List α}, (∀ t ∈ ts, r.terminates t = true) → ∀ p : Parsed α, p.mode = .startRecord →
      r.run p ts = p := by
    intro ts hts p hp
    induction ts with
    | nil => rfl
    | cons t ts ih =>
        have hstep : r.step p t = p := by
          unfold step
          rw [hp]
          exact if_pos (hts t List.mem_cons_self)
        rw [run_cons, hstep]
        exact ih (fun t' ht' => hts t' (List.mem_cons_of_mem _ ht'))
  obtain ⟨t, ts, hts⟩ := List.exists_cons_of_ne_nil h.ends
  have hterm := h.terminates
  rw [hts] at hterm ⊢
  rw [run_cons, step_terminator h hm (hterm t List.mem_cons_self)]
  exact hskip (fun t' ht' => hterm t' (List.mem_cons_of_mem _ ht')) _ rfl

/-- One record. -/
theorem run_record (h : Speaks r w) {gs : List (List α)} (hne : gs ≠ []) (hgs : ∀ f ∈ gs, Survives r w f) :
    r.run ⟨.startRecord, done, [], []⟩ (w.record gs) = ⟨.startRecord, done ++ [gs], [], []⟩ := by
  obtain ⟨m, before, last, hm, heq, hrun⟩ := run_fields done [] h hne hgs
  rw [← List.append_nil (w.record gs), run_line h, List.append_nil]
  by_cases hf : w.fields gs = []
  · rw [hf, run_nil] at hrun
    injection hrun with _ _ hbefore hlast
    rw [if_pos hf, run_terminator h (.inr (.inr rfl)), heq, ← hlast, show before = [] from hbefore.symm]
  · rw [if_neg hf, hrun, run_terminator h hm, heq]
    rfl

/-- **Round trip** — records whose fields all survive are read as they were written. -/
theorem parse_render (h : Speaks r w) {records : List (List (List α))} (hne : ∀ gs ∈ records, gs ≠ [])
    (hrec : ∀ gs ∈ records, ∀ f ∈ gs, Survives r w f) : r.parse (w.render records) = records := by
  have hrun : ∀ done, r.run ⟨.startRecord, done, [], []⟩ (w.render records)
      = ⟨.startRecord, done ++ records, [], []⟩ := by
    induction records with
    | nil => exact fun done => by rw [List.append_nil]; rfl
    | cons gs records ih =>
        intro done
        unfold Writing.render at *
        rw [List.flatMap_cons, run_append,
          run_record h (hne gs List.mem_cons_self) (hrec gs List.mem_cons_self),
          ih (fun gs' h' => hne gs' (List.mem_cons_of_mem _ h'))
            (fun gs' h' => hrec gs' (List.mem_cons_of_mem _ h')), List.append_assoc]
        rfl
  exact congrArg Parsed.finish (hrun [])

end RoundTrip

end Logic.Delimited
