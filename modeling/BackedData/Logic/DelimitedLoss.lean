/-
# BackedData.Logic.DelimitedLoss — which fields are lost between a writer and a reader

The converse of `parse_render`.  A reader takes nothing back: what it has of a field stays at the
beginning of that field, and a field it has ended stays as it is (`finish_run`).  So the first symbol that
is not the one written settles that the field is lost, and `survives_of_parse` says that no field of
records that are read as they were written is other than `Survives` allows.

The one case with an argument in it is a reader whose escape is written in front of quotes, but not in
front of itself.  It loses every other escape of a run, and is then behind the text; all it can do to catch
up is take a quote for the closing one, and `eq_makesUp` says what must follow then.
-/
import BackedData.Logic.Delimited

namespace Logic.Delimited

set_option autoImplicit false

variable {α : Type}

/-! ## Nothing is taken back -/

/-- **`Mode.Begun m`** — a record has been begun. -/
def Mode.Begun (m : Mode) : Prop := m ≠ .startRecord ∧ m ≠ .inComment

theorem begun_startField : Mode.Begun .startField := ⟨by decide, by decide⟩

theorem begun_inQuotes : Mode.Begun .inQuotes := ⟨by decide, by decide⟩

/-- **`Yields r p text f`** — reading the text from `p` on, the next field is `f`. -/
def Yields [DecidableEq α] (r : Reading α) (p : Parsed α) (text f : List α) : Prop :=
  ∃ gs rest, (r.run p text).finish = p.records ++ (p.fields ++ f :: gs) :: rest

section Loss

variable [DecidableEq α] {r : Reading α} {w : Writing α} {done : List (List (List α))}
  {fs : List (List α)} {buf : List α}

open Reading Writing

theorem plain_cases (p : Parsed α) (c : α) :
    r.plain p c = p.endField ∨ r.plain p c = p.endRecord ∨ r.plain p c = p.push c .inField := by
  unfold plain
  split
  · exact .inl rfl
  · split
    · exact .inr (.inl rfl)
    · exact .inr (.inr rfl)

/-- What one symbol can do. -/
theorem step_cases (p : Parsed α) (c : α) :
    (∃ m, r.step p c = { p with mode := m } ∧ (p.mode.Begun → m.Begun)) ∨
    (∃ m, r.step p c = p.push c m ∧ m.Begun) ∨ r.step p c = p.endField ∨ r.step p c = p.endRecord := by
  obtain ⟨m, records, fields, field⟩ := p
  have hplain : ∀ q : Parsed α, (∃ m, r.plain q c = { q with mode := m } ∧ (q.mode.Begun → m.Begun)) ∨
      (∃ m, r.plain q c = q.push c m ∧ m.Begun) ∨ r.plain q c = q.endField ∨ r.plain q c = q.endRecord := by
    intro q
    obtain h | h | h := @plain_cases _ _ r q c
    · exact .inr (.inr (.inl h))
    · exact .inr (.inr (.inr h))
    · exact .inr (.inl ⟨.inField, h, by decide, by decide⟩)
  have hfirst : ∀ q : Parsed α, (∃ m, r.first q c = { q with mode := m } ∧ (q.mode.Begun → m.Begun)) ∨
      (∃ m, r.first q c = q.push c m ∧ m.Begun) ∨ r.first q c = q.endField ∨ r.first q c = q.endRecord := by
    intro q
    unfold first
    split
    · exact .inl ⟨.inQuotes, rfl, fun _ => begun_inQuotes⟩
    · exact hplain q
  unfold step
  cases m with
  | startRecord =>
      dsimp only
      split
      · exact .inl ⟨.startRecord, rfl, id⟩
      · split
        · exact .inl ⟨.inComment, rfl, fun h => absurd rfl h.1⟩
        · exact hfirst _
  | startField => exact hfirst _
  | inField => exact hplain _
  | inQuotes =>
      dsimp only
      split
      · exact .inl ⟨.afterQuote, rfl, fun _ => ⟨by decide, by decide⟩⟩
      · split
        · exact .inl ⟨.escaped, rfl, fun _ => ⟨by decide, by decide⟩⟩
        · exact .inr (.inl ⟨.inQuotes, rfl, begun_inQuotes⟩)
  | escaped => exact .inr (.inl ⟨.inQuotes, rfl, begun_inQuotes⟩)
  | afterQuote =>
      dsimp only
      split
      · exact .inr (.inl ⟨.inQuotes, rfl, begun_inQuotes⟩)
      · exact hplain _
  | inComment =>
      dsimp only
      split
      · exact .inl ⟨.startRecord, rfl, fun h => absurd rfl h.2⟩
      · exact .inl ⟨.inComment, rfl, id⟩

/-- At the end, the records that were read come first, and the one that was begun next. -/
theorem finish_run (text : List α) : ∀ p : Parsed α,
    ∃ tail, (r.run p text).finish = p.records ++ tail ∧
      (p.mode.Begun → ∃ more gs rest, tail = (p.fields ++ (p.field ++ more) :: gs) :: rest) := by
  induction text with
  | nil =>
      intro p
      by_cases hp : p.mode.Begun
      · refine ⟨[p.fields ++ [p.field]], ?_, fun _ => ⟨[], [], [], ?_⟩⟩
        · rw [run_nil, Parsed.finish]
          split
          · exact absurd ‹_› hp.1
          · exact absurd ‹_› hp.2
          · rfl
        · rw [List.append_nil]
      · refine ⟨[], ?_, fun h => absurd h hp⟩
        rw [run_nil, Parsed.finish, List.append_nil]
        split
        · rfl
        · rfl
        · rename_i h₁ h₂
          exact absurd ⟨h₁, h₂⟩ hp
  | cons c text ih =>
      intro p
      rw [run_cons]
      obtain ⟨tail, htail, hbegun⟩ := ih (r.step p c)
      obtain ⟨m, hstep, hm⟩ | ⟨m, hstep, hm⟩ | hstep | hstep := @step_cases _ _ r p c
      · rw [hstep] at htail hbegun ⊢
        exact ⟨tail, htail, fun h => hbegun (hm h)⟩
      · rw [hstep] at htail hbegun ⊢
        refine ⟨tail, htail, fun _ => ?_⟩
        obtain ⟨more, gs, rest, rfl⟩ := hbegun hm
        exact ⟨c :: more, gs, rest, by rw [Parsed.push, List.append_assoc]; rfl⟩
      · rw [hstep] at htail hbegun ⊢
        refine ⟨tail, htail, fun _ => ?_⟩
        obtain ⟨more, gs, rest, rfl⟩ := hbegun begun_startField
        exact ⟨[], more :: gs, rest, by
          rw [Parsed.endField, List.append_assoc, List.append_nil]; rfl⟩
      · rw [hstep] at htail ⊢
        refine ⟨[p.fields ++ [p.field]] ++ tail, ?_, fun _ => ⟨[], [], tail, ?_⟩⟩
        · rw [htail, Parsed.endRecord, List.append_assoc]
        · rw [List.append_nil]
          rfl

/-- What there is of a field is its beginning. -/
theorem Yields.beginning {m : Mode} {text f : List α} (hm : m.Begun)
    (hf : Yields r ⟨m, done, fs, buf⟩ text f) : ∃ more, f = buf ++ more := by
  obtain ⟨gs, rest, hf⟩ := hf
  obtain ⟨tail, htail, hbegun⟩ := @finish_run _ _ r text ⟨m, done, fs, buf⟩
  obtain ⟨more, gs', rest', rfl⟩ := hbegun hm
  have heq := List.append_cancel_left (htail.symm.trans hf)
  have hhead := List.append_cancel_left (List.cons.inj heq).1
  exact ⟨more, (List.cons.inj hhead).1.symm⟩

/-- A symbol that was read into the field is the next one of it. -/
theorem Yields.copied {m : Mode} {c e : α} {y text : List α} (hm : m.Begun)
    (hf : Yields r ⟨m, done, fs, buf ++ [c]⟩ text (buf ++ e :: y)) : c = e := by
  obtain ⟨more, hmore⟩ := hf.beginning hm
  rw [List.append_assoc] at hmore
  exact (List.cons.inj (List.append_cancel_left hmore)).1.symm

/-- Reading on within the field. -/
theorem Yields.run {m m' : Mode} {a text f buf' : List α} (hf : Yields r ⟨m, done, fs, buf⟩ (a ++ text) f)
    (ha : r.run ⟨m, done, fs, buf⟩ a = ⟨m', done, fs, buf'⟩) : Yields r ⟨m', done, fs, buf'⟩ text f := by
  unfold Yields at *
  rwa [run_append, ha] at hf

theorem Yields.step {m m' : Mode} {c : α} {text f buf' : List α}
    (hf : Yields r ⟨m, done, fs, buf⟩ (c :: text) f)
    (hc : r.step ⟨m, done, fs, buf⟩ c = ⟨m', done, fs, buf'⟩) : Yields r ⟨m', done, fs, buf'⟩ text f :=
  Yields.run (a := [c]) hf hc

/-- What ends a field or a record. -/
def Separates (r : Reading α) (s : α) : Prop := s = r.delimiter ∨ r.terminates s = true

/-- A field that has been ended is what there was of it. -/
theorem Yields.ended (h : Speaks r w) {m : Mode} (hm : Ends m) {s : α} (hs : Separates r s)
    {text f : List α} (hf : Yields r ⟨m, done, fs, buf⟩ (s :: text) f) : f = buf := by
  obtain ⟨gs, rest, hf⟩ := hf
  rw [run_cons] at hf
  rcases hs with rfl | hs
  · rw [step_delimiter h hm] at hf
    obtain ⟨tail, htail, hbegun⟩ := @finish_run _ _ r text ⟨.startField, done, fs ++ [buf], []⟩
    obtain ⟨more, gs', rest', rfl⟩ := hbegun begun_startField
    have heq := (List.cons.inj (List.append_cancel_left (htail.symm.trans hf))).1
    rw [List.append_assoc] at heq
    exact (List.cons.inj (List.append_cancel_left heq)).1.symm
  · rw [step_terminator h hm hs] at hf
    obtain ⟨tail, htail, -⟩ := @finish_run _ _ r text ⟨.startRecord, done ++ [fs ++ [buf]], [], []⟩
    have heq := htail.symm.trans hf
    rw [List.append_assoc] at heq
    have hrec := (List.cons.inj (List.append_cancel_left heq)).1
    exact (List.cons.inj (List.append_cancel_left hrec)).1.symm

/-! ## Between quotes -/

/-- The closing quote, and the end of the field. -/
theorem Yields.closed (h : Speaks r w) {s : α} (hs : Separates r s) {text f : List α}
    (hf : Yields r ⟨.inQuotes, done, fs, buf⟩ (r.quote :: s :: text) f) : f = buf :=
  (hf.step (step_quote h.quoting)).ended h (.inr (.inr rfl)) hs

/-- Where an escape is due and no escape is written next, the field is lost. -/
theorem Yields.not_due (h : Speaks r w) {e s : α} (he : r.escape = some e) (hs : Separates r s)
    {x y text : List α} (hx : ∀ x', x ≠ e :: x')
    (hf : Yields r ⟨.inQuotes, done, fs, buf⟩ (w.body x ++ r.quote :: s :: text) (buf ++ e :: y)) :
    False := by
  obtain rfl := h.escape e he
  have hcopied : ∀ {c : α} {rest : List α}, c ≠ w.escape →
      Yields r ⟨.inQuotes, done, fs, buf ++ [c]⟩ rest (buf ++ w.escape :: y) → False :=
    fun hc hf => hc (hf.copied begun_inQuotes)
  rcases x with _ | ⟨c, x⟩
  · -- the field ends too early
    have hend := hf.closed h hs
    exact List.cons_ne_nil _ _ (List.append_right_eq_self.1 hend)
  · rw [body_cons, List.append_assoc] at hf
    by_cases hc : c = w.quote
    · subst hc
      rw [escaped_quote, h.quote, h.doubleQuote] at hf
      cases hd : r.doubleQuote with
      | true =>
          rw [hd, if_pos rfl] at hf
          exact hcopied h.escape_quote.symm
            ((hf.step (step_quote h.quoting)).step (if_pos ⟨h.quoting, hd, rfl⟩))
      | false =>
          rw [hd, if_neg (by decide)] at hf
          exact hcopied h.escape_quote.symm
            ((hf.step (step_escape h.quoting he h.escape_quote)).step (step_escaped _))
    · have hce : c ≠ w.escape := fun heq => hx x (by rw [heq])
      rw [escaped_of_ne hc] at hf
      exact hcopied hce (hf.step (step_quoted (h.quote ▸ hc)
        (fun heq => hce (Option.some.inj (he.symm.trans heq)).symm)))

/-- Where an escape is due behind an escape, and no escape is written next, what is written is a quote
that is escaped. -/
theorem Yields.due_escaped (h : Speaks r w) {e s : α} (he : r.escape = some e)
    {x y text : List α} (hx : ∀ x', x ≠ e :: x')
    (hf : Yields r ⟨.escaped, done, fs, buf⟩ (w.body x ++ r.quote :: s :: text) (buf ++ e :: y)) :
    r.doubleQuote = false ∧ ∃ x', x = r.quote :: x' ∧
      Yields r ⟨.inQuotes, done, fs, buf ++ [e]⟩
        (r.quote :: (w.body x' ++ r.quote :: s :: text)) (buf ++ e :: y) := by
  obtain rfl := h.escape e he
  have hcopied : ∀ {c : α} {rest : List α}, c ≠ w.escape →
      Yields r ⟨.escaped, done, fs, buf⟩ (c :: rest) (buf ++ w.escape :: y) → False := by
    intro c rest hc hf
    exact hc ((hf.step (step_escaped c)).copied begun_inQuotes)
  rcases x with _ | ⟨c, x⟩
  · exact (hcopied h.escape_quote.symm hf).elim
  · rw [body_cons, List.append_assoc] at hf
    by_cases hc : c = w.quote
    · subst hc
      rw [escaped_quote, h.quote, h.doubleQuote] at hf
      cases hd : r.doubleQuote with
      | true =>
          rw [hd, if_pos rfl] at hf
          exact (hcopied h.escape_quote.symm hf).elim
      | false =>
          rw [hd, if_neg (by decide)] at hf
          exact ⟨rfl, x, by rw [h.quote], hf.step (step_escaped _)⟩
    · rw [escaped_of_ne hc] at hf
      exact (hcopied (fun heq => hx x (by rw [heq])) hf).elim

/-- A text up to the first symbol that ends a field, if there is one. -/
theorem bare_or_split (text : List α) :
    Bare r text ∨ ∃ a s b, text = a ++ s :: b ∧ Bare r a ∧ Separates r s := by
  induction text with
  | nil => exact .inl fun c hc => absurd hc List.not_mem_nil
  | cons c text ih =>
      by_cases hc : c = r.delimiter
      · exact .inr ⟨[], c, text, rfl, fun c hc => absurd hc List.not_mem_nil, .inl hc⟩
      · cases ht : r.terminates c with
        | true => exact .inr ⟨[], c, text, rfl, fun c hc => absurd hc List.not_mem_nil, .inr ht⟩
        | false =>
            have hcons : ∀ {a}, Bare r a → Bare r (c :: a) := by
              intro a ha d hd
              rcases List.mem_cons.1 hd with rfl | hd
              · exact ⟨hc, ht⟩
              · exact ha d hd
            obtain hbare | ⟨a, s, b, rfl, ha, hs⟩ := ih
            · exact .inl (hcons hbare)
            · exact .inr ⟨c :: a, s, b, rfl, hcons ha, hs⟩

/-- Behind a quote that was not the closing one, a field that is not lost has the rest of it as it is
written, up to and with the closing quote. -/
theorem Yields.raw (h : Speaks r w) (hd : r.doubleQuote = false) {s : α} (hs : Separates r s)
    {x z text : List α} (hz : ∀ c ∈ x, c ∈ z)
    (hf : Yields r ⟨.afterQuote, done, fs, buf⟩ (w.body x ++ r.quote :: s :: text) (buf ++ z)) :
    w.body x ++ [r.quote] = z := by
  have hread : ∀ {a : List α}, Bare r a → ∃ m, Ends m ∧
      r.run ⟨.afterQuote, done, fs, buf⟩ a = ⟨m, done, fs, buf ++ a⟩ := by
    intro a ha
    rcases a with _ | ⟨c, a⟩
    · exact ⟨.afterQuote, .inr (.inr rfl), congrArg (Parsed.mk _ _ _) (List.append_nil buf).symm⟩
    · exact ⟨.inField, .inr (.inl rfl), run_afterQuote hd ha⟩
  rw [← List.singleton_append, ← List.append_assoc] at hf
  obtain hbare | ⟨a, s', b, hsplit, ha, hs'⟩ := @bare_or_split _ _ r (w.body x ++ [r.quote])
  · obtain ⟨m, hm, hrun⟩ := hread hbare
    exact (List.append_cancel_left ((hf.run hrun).ended h hm hs)).symm
  · -- the field would end at a symbol that it holds
    obtain ⟨m, hm, hrun⟩ := hread ha
    rw [hsplit, List.append_assoc] at hf
    obtain rfl := List.append_cancel_left ((hf.run hrun).ended h hm hs')
    have hmem : s' ∈ w.body x ++ [r.quote] := hsplit ▸ List.mem_append_right _ List.mem_cons_self
    have hnot : ∀ {c}, c ≠ r.delimiter ∧ r.terminates c = false → c ≠ s' := by
      rintro c ⟨hc, ht⟩ rfl
      exact hs'.elim hc (fun h' => by rw [ht] at h'; cases h')
    refine absurd rfl (hnot (ha s' ?_))
    rcases List.mem_append.1 hmem with hmem | hmem
    · obtain ⟨c, hc, hs''⟩ := List.mem_flatMap.1 hmem
      by_cases hq : c = w.quote
      · subst hq
        rw [escaped_quote, h.doubleQuote, hd, if_neg (by decide)] at hs''
        rcases List.mem_cons.1 hs'' with rfl | hs''
        · exact absurd rfl (hnot ⟨h.escape_delimiter, h.escape_terminates⟩)
        · obtain rfl := List.mem_singleton.1 hs''
          exact hz _ hc
      · rw [escaped_of_ne hq] at hs''
        obtain rfl := List.mem_singleton.1 hs''
        exact hz _ hc
    · obtain rfl := List.mem_singleton.1 hmem
      exact absurd rfl (hnot ⟨h.quote_delimiter, h.quote_terminates⟩)

/-! ## What makes up for lost escapes -/

/-- A body that begins with so many escapes and then a quote: the last of them is the quote's, or the
quote is the closing one. -/
theorem body_split {e : α} (hq : w.quote = r.quote) (hd : w.doubleQuote = false) (he : w.escape = e)
    (hne : e ≠ r.quote) {n : Nat} {y z : List α}
    (h : w.body y ++ [r.quote] = List.replicate n e ++ r.quote :: z) :
    (∃ k y', n = k + 1 ∧ y = List.replicate k e ++ r.quote :: y' ∧ w.body y' ++ [r.quote] = z) ∨
      (y = List.replicate n e ∧ z = []) := by
  have hescaped : w.escaped r.quote = [e, r.quote] := by
    rw [← hq, escaped_quote, hd, he]
    rfl
  induction n generalizing y with
  | zero =>
      rcases y with _ | ⟨c, y⟩
      · exact .inr ⟨rfl, (List.cons.inj h).2.symm⟩
      · by_cases hc : c = r.quote
        · subst hc
          rw [body_cons, hescaped] at h
          exact absurd (List.cons.inj h).1 hne
        · rw [body_cons, escaped_of_ne (hq ▸ hc)] at h
          exact absurd (List.cons.inj h).1 hc
  | succ n ih =>
      rcases y with _ | ⟨c, y⟩
      · exact absurd (List.cons.inj h).1.symm hne
      · by_cases hc : c = r.quote
        · subst hc
          rw [body_cons, hescaped] at h
          have hrest : r.quote :: (w.body y ++ [r.quote]) = List.replicate n e ++ r.quote :: z :=
            (List.cons.inj h).2
          rcases n with _ | n
          · exact .inl ⟨0, y, rfl, rfl, (List.cons.inj hrest).2⟩
          · exact absurd (List.cons.inj hrest).1.symm hne
        · rw [body_cons, escaped_of_ne (hq ▸ hc)] at h
          obtain rfl : c = e := (List.cons.inj h).1
          obtain ⟨k, y', rfl, rfl, hz⟩ | ⟨rfl, rfl⟩ := ih (List.cons.inj h).2
          · exact .inl ⟨k + 1, y', rfl, rfl, hz⟩
          · exact .inr ⟨rfl, rfl⟩

/-- What is the same again behind its escapes and a quote. -/
theorem eq_makesUp {e : α} (hq : w.quote = r.quote) (hd : w.doubleQuote = false) (he : w.escape = e)
    (hne : e ≠ r.quote) {n : Nat} {y : List α}
    (h : w.body y ++ [r.quote] = List.replicate n e ++ r.quote :: y) : y = makesUp e r.quote n := by
  induction n generalizing y with
  | zero =>
      obtain ⟨k, -, hk, -⟩ | ⟨hy, -⟩ := body_split hq hd he hne h
      · cases hk
      · exact hy
  | succ n ih =>
      obtain ⟨k, y', hk, rfl, hy⟩ | ⟨hy, hnil⟩ := body_split hq hd he hne h
      · obtain rfl := Nat.succ.inj hk
        rw [ih hy]
        rfl
      · rw [hnil] at hy
        cases hy

/-! ## The converse -/

theorem exists_run (e : α) (v : List α) :
    ∃ n x, v = List.replicate n e ++ x ∧ ∀ x', x ≠ e :: x' := by
  induction v with
  | nil => exact ⟨0, [], rfl, fun x' h => by cases h⟩
  | cons c v ih =>
      by_cases hc : c = e
      · obtain ⟨n, x, rfl, hx⟩ := ih
        exact ⟨n + 1, x, by rw [hc]; rfl, hx⟩
      · exact ⟨0, c :: v, rfl, fun x' h => hc (List.cons.inj h).1⟩

/-- A field with an escape in it that comes through quotes has one run of escapes, of odd length, before
something that makes up for it. -/
theorem recovers_of_yields (h : Speaks r w) {e s : α} (he : r.escape = some e) (hs : Separates r s)
    {f text : List α} (hmem : e ∈ f)
    (hf : Yields r ⟨.inQuotes, done, fs, []⟩ (w.body f ++ r.quote :: s :: text) f) :
    r.doubleQuote = false ∧ Recovers e r.quote f := by
  obtain rfl := h.escape e he
  obtain ⟨u, v, rfl, hu⟩ := List.eq_append_cons_of_mem hmem
  obtain ⟨n, x, hv, hx⟩ := exists_run w.escape (w.escape :: v)
  rw [hv] at hf ⊢
  have hne : w.escape ≠ w.quote := h.quote ▸ h.escape_quote
  rw [body_append, body_append, body_replicate hne, List.append_assoc, List.append_assoc] at hf
  have hlead := hf.run (run_body h (fun e he' => by rw [he] at he'; cases he'; exact hu)
    (fun _ h' => by rw [he] at h'; cases h'))
  -- what `2 * k` escapes leave of themselves, and what is due then
  have hhalf : ∀ k x, u ++ (List.replicate (2 * k) w.escape ++ x)
      = [] ++ u ++ List.replicate k w.escape ++ (List.replicate k w.escape ++ x) := by
    intro k x
    rw [List.nil_append, List.append_assoc, ← List.append_assoc (List.replicate k _),
      List.replicate_append_replicate, Nat.two_mul]
  obtain ⟨k, rfl | rfl⟩ : ∃ k, n = 2 * k ∨ n = 2 * k + 1 := ⟨n / 2, by omega⟩
  · rcases k with _ | k
    · exact absurd hv.symm (hx v)
    · -- all of them are lost by pairs
      rw [hhalf] at hlead
      exact ((hlead.run (run_escapes h.quoting he h.escape_quote (k + 1))).not_due h he hs hx).elim
  · -- one is left over, and it must stand before a quote
    have hodd : ∀ x, List.replicate (2 * k + 1) w.escape ++ x
        = List.replicate (2 * k) w.escape ++ w.escape :: x := by
      intro x
      rw [List.replicate_succ', List.append_assoc]
      rfl
    have hdue : List.replicate k w.escape ++ w.escape :: x
        = w.escape :: (List.replicate k w.escape ++ x) := by
      rw [List.append_cons, ← List.replicate_succ', List.replicate_succ, List.cons_append]
    rw [hodd, hodd, hhalf, hdue] at hlead
    have hpairs := hlead.run (run_escapes h.quoting he h.escape_quote k)
    have hescape := hpairs.step (step_escape h.quoting he h.escape_quote)
    obtain ⟨hd, x, rfl, hquote⟩ := hescape.due_escaped h he hx
    have hd' := h.doubleQuote.trans hd
    have hraw := hquote.step (step_quote h.quoting)
    rw [List.append_cons _ w.escape (List.replicate k w.escape ++ r.quote :: x)] at hraw
    have hbody := hraw.raw h hd hs (fun c hc => List.mem_append_right _ (List.mem_cons_of_mem _ hc))
    have hx' := eq_makesUp h.quote hd' rfl h.escape_quote hbody
    refine ⟨hd, u, k, hu, ?_⟩
    rw [List.append_assoc, ← hx']

/-- A field that is read between quotes as it was written is unharmed. -/
theorem unharmed_of_yields (h : Speaks r w) {s : α} (hs : Separates r s) {f text : List α}
    (hf : Yields r ⟨.inQuotes, done, fs, []⟩ (w.body f ++ r.quote :: s :: text) f) : Unharmed r f := by
  unfold Unharmed
  cases he : r.escape with
  | some e =>
      cases hd : r.doubleQuote with
      | true =>
          intro hmem
          have hd' := (recovers_of_yields h he hs hmem hf).1
          rw [hd] at hd'
          cases hd'
      | false =>
          by_cases hmem : e ∈ f
          · exact .inr (recovers_of_yields h he hs hmem hf).2
          · exact .inl hmem
  | none =>
      cases hd : r.doubleQuote with
      | true => trivial
      | false =>
          -- the escape in front of the first quote is read as a symbol of the field
          intro hmem
          obtain ⟨u, v, rfl, hu⟩ := List.eq_append_cons_of_mem hmem
          have hnone : ∀ e, r.escape = some e → e ∉ u := fun e h' => by rw [he] at h'; cases h'
          rw [body_append, body_cons, ← h.quote, escaped_quote, h.quote, h.doubleQuote, hd,
            if_neg (by decide), List.append_assoc, List.append_assoc] at hf
          have hlead := hf.run (run_body h hnone (fun _ _ => hu))
          have hstep := hlead.step (step_quoted h.escape_quote (by rw [he]; exact fun h' => by cases h'))
          rw [List.nil_append] at hstep
          exact h.escape_quote (hstep.copied begun_inQuotes)

theorem survives_of_yields (h : Speaks r w) {s : α} (hs : Separates r s) {f text : List α}
    (hf : Yields r ⟨.startField, done, fs, []⟩ (w.field f ++ s :: text) f) : Survives r w f := by
  intro hquotes
  rw [field_of_quotes hquotes, h.quote, List.cons_append, List.append_assoc] at hf
  exact unharmed_of_yields h hs (hf.step (step_open h.quoting))

/-- The fields of one record, if they are the first ones of the record that is read. -/
theorem fields_survive (h : Speaks r w) {t : α} (ht : r.terminates t = true) {text : List α}
    {gs hs : List (List α)} {rest : List (List (List α))}
    (hread : (r.run ⟨.startField, done, fs, []⟩ (w.fields gs ++ t :: text)).finish
      = done ++ (fs ++ (gs ++ hs)) :: rest) : ∀ f ∈ gs, Survives r w f := by
  induction gs generalizing fs with
  | nil => exact fun f hf => absurd hf List.not_mem_nil
  | cons f gs ih =>
      rcases gs with _ | ⟨g, gs⟩
      · have hf := survives_of_yields h (.inr ht) ⟨hs, rest, hread⟩
        intro f' hf'
        rwa [List.mem_singleton.1 hf']
      · rw [Writing.fields, List.append_assoc, List.cons_append, h.delimiter] at hread
        have hf : Survives r w f := survives_of_yields h (.inl rfl) ⟨g :: gs ++ hs, rest, hread⟩
        obtain ⟨m, hm, hrun⟩ := run_field done fs h hf
        rw [run_append, hrun, run_cons, step_delimiter h hm, List.cons_append,
          List.append_cons fs f (g :: gs ++ hs)] at hread
        exact List.forall_mem_cons.2 ⟨hf, ih hread⟩

/-- One line. -/
theorem record_survives (h : Speaks r w) {gs hs : List (List α)} (hne : gs ≠ []) {text : List α}
    {rest : List (List (List α))}
    (hread : (r.run ⟨.startRecord, done, [], []⟩ (w.record gs ++ text)).finish
      = done ++ (gs ++ hs) :: rest) : ∀ f ∈ gs, Survives r w f := by
  rw [run_line h] at hread
  by_cases hf : w.fields gs = []
  · -- nothing but one empty field without quotes is written as nothing
    rcases gs with _ | ⟨f, _ | ⟨g, gs⟩⟩
    · exact absurd rfl hne
    · intro f' hf' hquotes
      rw [List.mem_singleton.1 hf'] at hquotes
      rw [show w.fields [f] = w.field f from rfl, field_of_quotes hquotes] at hf
      cases hf
    · exact absurd hf (List.append_ne_nil_of_right_ne_nil _ (List.cons_ne_nil _ _))
  · obtain ⟨t, ts, hts⟩ := List.exists_cons_of_ne_nil h.ends
    rw [if_neg hf, hts, ← run_append, List.cons_append] at hread
    exact fields_survive h (h.terminates t (hts ▸ List.mem_cons_self)) hread

/-- A first record that survives is read first. -/
theorem exists_parse_cons (h : Speaks r w) {gs : List (List α)} (hne : gs ≠ [])
    (hgs : ∀ f ∈ gs, Survives r w f) (records : List (List (List α))) :
    ∃ outs, r.parse (w.render (gs :: records)) = gs :: outs := by
  obtain ⟨outs, houts, -⟩ := @finish_run _ _ r (w.render records) ⟨.startRecord, [gs], [], []⟩
  refine ⟨outs, ?_⟩
  rw [Reading.parse, Writing.render, List.flatMap_cons, run_append, Parsed.new, run_record h hne hgs]
  exact houts

/-- **What is read as it was written survives** — it is enough that the fields that were written are the
first ones of the records that are read. -/
theorem survives_of_parse (h : Speaks r w) {records : List (List (List α))}
    (hne : ∀ gs ∈ records, gs ≠ [])
    (hread : List.Forall₂ (· <+: ·) records (r.parse (w.render records))) :
    ∀ gs ∈ records, ∀ f ∈ gs, Survives r w f := by
  have hrun : ∀ done outs, (r.run ⟨.startRecord, done, [], []⟩ (w.render records)).finish = done ++ outs →
      List.Forall₂ (· <+: ·) records outs → ∀ gs ∈ records, ∀ f ∈ gs, Survives r w f := by
    clear hread
    induction records with
    | nil => exact fun _ _ _ _ gs hgs => absurd hgs List.not_mem_nil
    | cons gs records ih =>
        intro done outs hread hfor
        obtain ⟨out, outs, ⟨hs, rfl⟩, hrest, rfl⟩ := List.forall₂_cons_left_iff.1 hfor
        have hgs := hne gs List.mem_cons_self
        rw [Writing.render, List.flatMap_cons] at hread
        have hfields := record_survives h hgs hread
        -- from here on reader and writer are at the same record again
        rw [run_append, run_record h hgs hfields] at hread
        obtain ⟨tail, htail, -⟩ := @finish_run _ _ r (records.flatMap w.record) ⟨.startRecord, done ++ [gs], [], []⟩
        have heq := htail.symm.trans hread
        rw [List.append_assoc] at heq
        obtain rfl := (List.cons.inj (List.append_cancel_left heq)).2
        exact List.forall_mem_cons.2 ⟨hfields,
          ih (fun gs' h' => hne gs' (List.mem_cons_of_mem _ h')) _ _ htail hrest⟩
  exact hrun [] _ rfl hread

end Loss

end Logic.Delimited
