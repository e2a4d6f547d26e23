import WasmHost.Datum.Toml
import WasmHost.Proofs.Datum.Digits
import WasmHost.Proofs.Datum.Meaning

/-!
# The grammar of TOML

How values and keys are written, by the rules of the format: strings in double quotes with escapes
or in single quotes, whole numbers with or without a sign and underscores, truth values, lists over
several lines, tables in braces, bare and quoted keys. What is written is read back.
-/

namespace WasmHost.Datum.Toml

/-! ## Strings -/

/-- Escapes of one letter: the letter, and what it stands for. -/
def shortEscapes : List (Char × Char) :=
  [('b', '\x08'), ('t', '\t'), ('n', '\n'), ('f', '\x0c'), ('r', '\r'), ('"', '"'), ('\\', '\\')]

/-- Hexadecimal digits of a number. -/
def HexDigits (ds : List Char) (n : Nat) : Prop :=
  ∃ vs, List.Forall₂ (fun d v => Text.hexDigit? d = some v) ds vs ∧
    vs.foldl (fun n v => 16 * n + v) 0 = n

/-- How a character is written in double quotes. -/
inductive SpellsChar : Char → List Char → Prop
  | plain {c} : isTextChar c = true → c ≠ '"' → c ≠ '\\' → SpellsChar c [c]
  | short {e c} : (e, c) ∈ shortEscapes → SpellsChar c ['\\', e]
  | code {c ds} : ds.length = 4 → HexDigits ds c.toNat → SpellsChar c ('\\' :: 'u' :: ds)
  | longCode {c ds} : ds.length = 8 → HexDigits ds c.toNat → SpellsChar c ('\\' :: 'U' :: ds)

/-- How characters are written in double quotes. -/
inductive SpellsChars : List Char → List Char → Prop
  | nil : SpellsChars [] []
  | cons {c cs t ts} : SpellsChar c t → SpellsChars cs ts → SpellsChars (c :: cs) (t ++ ts)

/-- A quoted text with its quotes. -/
inductive SpellsString : String → List Char → Prop
  | basic {cs ts} : SpellsChars cs ts → SpellsString (String.ofList cs) ('"' :: (ts ++ ['"']))
  | literal {cs} : (∀ c ∈ cs, isTextChar c = true ∧ c ≠ '\'') →
      SpellsString (String.ofList cs) ('\'' :: (cs ++ ['\'']))

theorem scalar?_of_hexDigits {ds : List Char} {c : Char} (h : HexDigits ds c.toNat) :
    scalar? ds = some c := by
  obtain ⟨vs, hvs, hn⟩ := h
  have hfold : ∀ n, ds.foldl (fun acc c => do return 16 * (← acc) + (← Text.hexDigit? c)) (some n) =
      some (vs.foldl (fun n v => 16 * n + v) n) := by
    clear hn
    induction hvs with
    | nil => intro n; rfl
    | cons hd _ ih =>
      intro n
      rw [List.foldl_cons, List.foldl_cons, ← ih]
      simp [hd]
  rw [scalar?, hfold, hn]
  exact dif_pos c.valid

theorem escape_of_mem {e c : Char} (h : (e, c) ∈ shortEscapes) (rest : List Char) :
    escape (e :: rest) = some (c, rest) := by
  simp only [shortEscapes, List.mem_cons, Prod.mk.injEq, List.not_mem_nil, or_false] at h
  rcases h with ⟨rfl, rfl⟩ | ⟨rfl, rfl⟩ | ⟨rfl, rfl⟩ | ⟨rfl, rfl⟩ | ⟨rfl, rfl⟩ | ⟨rfl, rfl⟩ |
    ⟨rfl, rfl⟩ <;> rfl

theorem basicString_char {c : Char} {t : List Char} (h : SpellsChar c t) (fuel : Nat)
    (rest : List Char) : basicString (fuel + 1) (t ++ rest) =
      (basicString fuel rest).map fun (cs, rest) => (c :: cs, rest) := by
  have escaped : ∀ {e : List Char}, escape (e ++ rest) = some (c, rest) →
      basicString (fuel + 1) ('\\' :: (e ++ rest)) =
        (basicString fuel rest).map fun (cs, rest) => (c :: cs, rest) := by
    intro e he
    rw [basicString]
    simp only [he, Option.bind_eq_bind, Option.bind_some]
    cases basicString fuel rest <;> rfl
  cases h with
  | plain ht hq hb =>
    rw [List.singleton_append, basicString]
    · simp only [ht, if_true]
      cases basicString fuel rest <;> rfl
    · exact fun h => absurd h hq
    · exact fun h => absurd h hb
  | short he => exact escaped (e := [_]) (escape_of_mem he rest)
  | @code _ ds hl hd =>
    refine escaped (e := 'u' :: ds) ?_
    simp [escape, hl, scalar?_of_hexDigits hd]
  | @longCode _ ds hl hd =>
    refine escaped (e := 'U' :: ds) ?_
    simp [escape, hl, scalar?_of_hexDigits hd]

theorem SpellsChar.length_pos {c : Char} {t : List Char} (h : SpellsChar c t) : 0 < t.length := by
  cases h <;> simp

theorem basicString_of_spells {cs ts : List Char} (h : SpellsChars cs ts) {fuel : Nat}
    (hf : ts.length < fuel) (rest : List Char) :
    basicString fuel (ts ++ '"' :: rest) = some (cs, rest) := by
  induction h generalizing fuel with
  | nil =>
    obtain ⟨fuel, rfl⟩ : ∃ f, fuel = f + 1 := ⟨fuel - 1, by omega⟩
    rfl
  | @cons c cs t ts hc _ ih =>
    have hpos := hc.length_pos
    rw [List.length_append] at hf
    obtain ⟨fuel, rfl⟩ : ∃ f, fuel = f + 1 := ⟨fuel - 1, by omega⟩
    rw [List.append_assoc, basicString_char hc, ih (by omega)]
    rfl

theorem literalString_of_spells {cs : List Char} (h : ∀ c ∈ cs, isTextChar c = true ∧ c ≠ '\'')
    (rest : List Char) : literalString (cs ++ '\'' :: rest) = some (cs, rest) := by
  induction cs with
  | nil => rfl
  | cons c cs ih =>
    rw [List.forall_mem_cons] at h
    rw [List.cons_append, literalString]
    · simp [h.1.1, ih h.2]
    · exact fun hc => absurd hc h.1.2

/-- What may follow a value. -/
def Stops (cs : List Char) : Prop :=
  ∀ c ∈ cs.head?, c ∈ [' ', '\t', '\n', '\r', '#', ',', ']', '\x7d']

theorem Stops.ne {c d : Char} {cs : List Char} (h : Stops (c :: cs))
    (hd : d ∉ [' ', '\t', '\n', '\r', '#', ',', ']', '\x7d']) : c ≠ d := by
  rintro rfl
  exact hd (h c rfl)

theorem SpellsChars.head_ne {cs ts : List Char} (h : SpellsChars cs ts) :
    ∀ c ∈ ts.head?, c ≠ '"' := by
  intro c hc
  cases h with
  | nil => simp at hc
  | cons hd _ =>
    cases hd with
    | plain _ hq _ => simp at hc; exact hc ▸ hq
    | _ => simp at hc; subst hc; decide

theorem readString_of_spells {s : String} {ts rest : List Char} (h : SpellsString s ts)
    (hr : Stops rest) : readString (ts ++ rest) = some (s, rest) := by
  cases h with
  | @basic cs ts hs =>
    have hnot : ∀ r, ts ++ '"' :: rest ≠ '"' :: '"' :: r := by
      intro r heq
      cases ts with
      | nil =>
        rw [List.nil_append, List.cons.injEq] at heq
        rw [heq.2] at hr
        exact hr.ne (d := '"') (by decide) rfl
      | cons c ts => exact hs.head_ne c rfl (List.cons.inj heq).1
    have hread : readString ('"' :: (ts ++ '"' :: rest)) =
        (basicString ('"' :: (ts ++ '"' :: rest)).length.succ (ts ++ '"' :: rest)).map
          fun (cs, rest) => (String.ofList cs, rest) := by
      unfold readString
      simp only
    rw [List.cons_append, List.append_assoc, List.singleton_append, hread,
      basicString_of_spells hs (by simp only [List.length_append, List.length_cons]; omega)]
    rfl
  | @literal cs hs =>
    have hnot : ∀ r, cs ++ '\'' :: rest ≠ '\'' :: '\'' :: r := by
      intro r heq
      cases cs with
      | nil =>
        rw [List.nil_append, List.cons.injEq] at heq
        rw [heq.2] at hr
        exact hr.ne (d := '\'') (by decide) rfl
      | cons c cs => exact (hs c (by simp)).2 (List.cons.inj heq).1
    have hread : readString ('\'' :: (cs ++ '\'' :: rest)) =
        (literalString (cs ++ '\'' :: rest)).map fun (cs, rest) => (String.ofList cs, rest) := by
      unfold readString
      simp only
    rw [List.cons_append, List.append_assoc, List.singleton_append, hread,
      literalString_of_spells hs]
    rfl

/-! ## Numbers -/

/-- Digits with single underscores between them. -/
inductive SpellsDigits : List Char → List Char → Prop
  | one {d} : d.isDigit = true → SpellsDigits [d] [d]
  | next {d ds ts} : d.isDigit = true → SpellsDigits ds ts → SpellsDigits (d :: ds) (d :: ts)
  | gap {d ds ts} : d.isDigit = true → SpellsDigits ds ts → SpellsDigits (d :: ds) (d :: '_' :: ts)

/-- A whole number of 64 bits with a sign. -/
inductive SpellsInt : Int → List Char → Prop
  | plain {n : Nat} {ts} : n < 2 ^ 63 → SpellsDigits (Nat.toDigits 10 n) ts → SpellsInt n ts
  | plus {n : Nat} {ts} : n < 2 ^ 63 → SpellsDigits (Nat.toDigits 10 n) ts → SpellsInt n ('+' :: ts)
  | minus {n : Nat} {ts} : n ≤ 2 ^ 63 → SpellsDigits (Nat.toDigits 10 n) ts →
      SpellsInt (-n) ('-' :: ts)

theorem SpellsDigits.head {ds ts : List Char} (h : SpellsDigits ds ts) :
    ∃ d ds' ts', ds = d :: ds' ∧ ts = d :: ts' ∧ d.isDigit = true := by
  cases h with
  | one hd => exact ⟨_, _, _, rfl, rfl, hd⟩
  | next hd _ => exact ⟨_, _, _, rfl, rfl, hd⟩
  | gap hd _ => exact ⟨_, _, _, rfl, rfl, hd⟩

theorem ne_of_isDigit {c d : Char} (h : c.isDigit = true) (hd : d.isDigit = false) : c ≠ d := by
  rintro rfl; simp [hd] at h

theorem Stops.not_isDigit {c : Char} {cs : List Char} (h : Stops (c :: cs)) :
    c.isDigit = false := by
  have hc := h c rfl
  simp only [List.mem_cons, List.not_mem_nil, or_false] at hc
  rcases hc with rfl | rfl | rfl | rfl | rfl | rfl | rfl | rfl <;> rfl

theorem digitRun_digit {d : Char} (hd : d.isDigit = true) (cs : List Char) :
    digitRun Char.isDigit (d :: cs) =
      (d :: (digitRun Char.isDigit cs).1, (digitRun Char.isDigit cs).2) := by
  have hu : d ≠ '_' := ne_of_isDigit hd rfl
  rw [digitRun]
  · simp [hd]
  · exact fun _ _ h => absurd h hu

theorem digitRun_of_spells {ds ts rest : List Char} (h : SpellsDigits ds ts) (hr : Stops rest) :
    digitRun Char.isDigit (ts ++ rest) = (ds, rest) := by
  induction h with
  | one hd =>
    rw [List.singleton_append, digitRun_digit hd]
    cases rest with
    | nil => rfl
    | cons c cs =>
      have hu : c ≠ '_' := hr.ne (by decide)
      rw [digitRun]
      · simp [hr.not_isDigit]
      · exact fun _ _ h => absurd h hu
  | next hd _ ih => rw [List.cons_append, digitRun_digit hd, ih]
  | @gap d ds ts hd hts ih =>
    obtain ⟨d', ds', ts', rfl, rfl, hd'⟩ := hts.head
    have hskip : digitRun Char.isDigit ('_' :: (d' :: ts' ++ rest)) =
        digitRun Char.isDigit (d' :: ts' ++ rest) := by
      rw [List.cons_append, digitRun_digit hd', digitRun]
      simp [hd']
    rw [List.cons_append, digitRun_digit hd, List.cons_append, hskip, ih]

theorem wholeDigits_of_spells {n : Nat} {ts rest : List Char}
    (h : SpellsDigits (Nat.toDigits 10 n) ts) (hr : Stops rest) :
    wholeDigits (ts ++ rest) = some (Nat.toDigits 10 n, rest) := by
  have hrun := digitRun_of_spells h hr
  obtain ⟨d, ds, ts', hds, rfl, hd⟩ := h.head
  by_cases hz : d = '0'
  · subst hz
    have hnil := Json.decimal_eq_of_zero hds
    subst hnil
    rw [hds] at h ⊢
    cases h with
    | one _ => rfl
    | next _ h => cases h
    | gap _ h => cases h
  · rw [List.cons_append, wholeDigits]
    · rw [List.cons_append] at hrun
      simp [digitRun1, hd, hrun]
    · exact fun _ h => absurd (List.cons.inj h).1 hz

theorem fractionOf_stops {rest : List Char} (hr : Stops rest) :
    fractionOf rest = some (none, rest) := by
  cases rest with
  | nil => rfl
  | cons c cs =>
    rw [fractionOf]
    exact fun _ h => absurd (List.cons.inj h).1 (hr.ne (by decide))

theorem exponentOf_stops {rest : List Char} (hr : Stops rest) :
    exponentOf rest = some (none, rest) := by
  cases rest with
  | nil => rfl
  | cons c cs =>
    have he : c ≠ 'e' := hr.ne (by decide)
    have hE : c ≠ 'E' := hr.ne (by decide)
    simp [exponentOf, he, hE]

theorem decimalNumber_of_spells {n : Nat} {ts rest : List Char} {negative : Bool}
    {cs : List Char} (hsign : signOf cs = (negative, ts ++ rest))
    (h : SpellsDigits (Nat.toDigits 10 n) ts) (hr : Stops rest)
    (hn : if negative then n ≤ 2 ^ 63 else n < 2 ^ 63) :
    decimalNumber cs = some (.int (if negative then -(n : Int) else n), rest) := by
  have hwhole := wholeDigits_of_spells h hr
  obtain ⟨d, ds, ts', hds, rfl, hd⟩ := h.head
  have hi : d ≠ 'i' := ne_of_isDigit hd rfl
  have hN : d ≠ 'n' := ne_of_isDigit hd rfl
  have hrange : -2 ^ 63 ≤ (if negative then -(n : Int) else n) ∧
      (if negative then -(n : Int) else n) < 2 ^ 63 := by
    cases negative <;> simp at hn ⊢ <;> omega
  rw [List.cons_append] at hwhole hsign
  unfold decimalNumber
  simp only [hsign]
  split
  · rename_i heq; exact absurd (List.cons.inj heq).1 hi
  · rename_i heq; exact absurd (List.cons.inj heq).1 hN
  · simp only [hwhole, fractionOf_stops hr, exponentOf_stops hr, Option.bind_eq_bind,
      Option.bind_some, Json.digitsValue_decimal]
    simpa using hrange

/-! ### What is no date and no time -/

theorem fixedDigits_eq_some {n lo hi v : Nat} {cs rest : List Char}
    (h : fixedDigits n lo hi cs = some (v, rest)) :
    rest = cs.drop n ∧ (cs.take n).length = n ∧ ∀ c ∈ cs.take n, c.isDigit = true := by
  simp only [fixedDigits] at h
  split_ifs at h with h1 h2
  simp only [Option.some.injEq, Prod.mk.injEq] at h
  exact ⟨h.2.symm, h1.1, by simpa using h1.2⟩

/-- Behind some digits of a number stands a digit, an underscore, or what follows the number. -/
theorem after?_digits {ds ts rest : List Char} (h : SpellsDigits ds ts) (hr : Stops rest) {m : Char}
    (hm : m = '-' ∨ m = ':') (n : Nat) (hl : ((ts ++ rest).take n).length = n)
    (hd : ∀ c ∈ (ts ++ rest).take n, c.isDigit = true) :
    after? m ((ts ++ rest).drop n) = none := by
  have hdigit : m.isDigit = false := by rcases hm with rfl | rfl <;> rfl
  have hunder : '_' ≠ m := by rcases hm with rfl | rfl <;> decide
  have hstop : m ∉ [' ', '\t', '\n', '\r', '#', ',', ']', '\x7d'] := by
    rcases hm with rfl | rfl <;> decide
  have first : ∀ {c : Char} (cs : List Char), c ≠ m → after? m (c :: cs) = none := by
    intro c cs hc
    simp [after?, hc]
  induction h generalizing n with
  | @one d hd' =>
    cases n with
    | zero => exact first _ (ne_of_isDigit hd' hdigit)
    | succ n =>
      cases rest with
      | nil => simp [after?]
      | cons c cs =>
        cases n with
        | zero => exact first _ (hr.ne hstop)
        | succ n =>
          have := hd c (by simp)
          rw [hr.not_isDigit] at this
          cases this
  | @next d ds ts hd' _ ih =>
    cases n with
    | zero => exact first _ (ne_of_isDigit hd' hdigit)
    | succ n =>
      refine ih n (by simpa using hl) fun c hc => hd c ?_
      simp [hc]
  | @gap d ds ts hd' _ ih =>
    cases n with
    | zero => exact first _ (ne_of_isDigit hd' hdigit)
    | succ n =>
      cases n with
      | zero => exact first _ hunder
      | succ n =>
        have := hd '_' (by simp)
        simp at this

theorem readDateTime_digits {ds ts rest : List Char} (h : SpellsDigits ds ts) (hr : Stops rest) :
    readDateTime (ts ++ rest) = none := by
  have hdate : date (ts ++ rest) = none := by
    rw [date]
    cases hf : fixedDigits 4 0 9999 (ts ++ rest) with
    | none => rfl
    | some p =>
      obtain ⟨hrest, hl, hd⟩ := fixedDigits_eq_some hf
      simp [hrest, after?_digits h hr (.inl rfl) 4 hl hd]
  have htime : timeOfDay (ts ++ rest) = none := by
    rw [timeOfDay]
    cases hf : fixedDigits 2 0 23 (ts ++ rest) with
    | none => rfl
    | some p =>
      obtain ⟨hrest, hl, hd⟩ := fixedDigits_eq_some hf
      simp [hrest, after?_digits h hr (.inr rfl) 2 hl hd]
  simp [readDateTime, dateTime, hdate, htime]

theorem readDateTime_sign {c : Char} (hc : c.isDigit = false) (cs : List Char) :
    readDateTime (c :: cs) = none := by
  have hfix : ∀ n lo hi, fixedDigits (n + 1) lo hi (c :: cs) = none := by
    intro n lo hi
    cases hf : fixedDigits (n + 1) lo hi (c :: cs) with
    | none => rfl
    | some p =>
      have := (fixedDigits_eq_some hf).2.2 c (by simp)
      rw [hc] at this
      cases this
  simp [readDateTime, dateTime, date, timeOfDay, hfix]

theorem SpellsInt.head {n : Int} {ts : List Char} (h : SpellsInt n ts) :
    ∃ c cs, ts = c :: cs ∧ (c.isDigit = true ∨ c = '+' ∨ c = '-') := by
  cases h with
  | plain _ hd =>
    obtain ⟨d, _, ts', -, rfl, hdigit⟩ := hd.head
    exact ⟨d, ts', rfl, .inl hdigit⟩
  | plus _ _ => exact ⟨_, _, rfl, .inr (.inl rfl)⟩
  | minus _ _ => exact ⟨_, _, rfl, .inr (.inr rfl)⟩

/-- A decimal number is not taken for one with another base. -/
theorem ne_radix_of_spells {n : Nat} {ts rest : List Char}
    (h : SpellsDigits (Nat.toDigits 10 n) ts) (hr : Stops rest) {c : Char}
    (hc : c ∈ ['x', 'o', 'b']) (r : List Char) : ts ++ rest ≠ '0' :: c :: r := by
  intro heq
  obtain ⟨d, ds, ts', hds, rfl, -⟩ := h.head
  obtain ⟨rfl, htail⟩ := List.cons.inj heq
  obtain rfl := Json.decimal_eq_of_zero hds
  rw [hds] at h
  have hnil : ts' = [] := by
    cases h with
    | one _ => rfl
    | next _ h => cases h
    | gap _ h => cases h
  obtain rfl : rest = c :: r := by rw [hnil] at htail; exact htail
  simp only [List.mem_cons, List.not_mem_nil, or_false] at hc
  rcases hc with rfl | rfl | rfl <;> exact hr.ne (by decide) rfl

theorem signOf_of_spells {n : Nat} {ts : List Char} (h : SpellsDigits (Nat.toDigits 10 n) ts)
    (rest : List Char) : signOf (ts ++ rest) = (false, ts ++ rest) := by
  obtain ⟨d, ds, ts', -, rfl, hdigit⟩ := h.head
  rw [List.cons_append, signOf]
  · exact fun _ h => absurd (List.cons.inj h).1 (ne_of_isDigit hdigit rfl)
  · exact fun _ h => absurd (List.cons.inj h).1 (ne_of_isDigit hdigit rfl)

/-- A whole number is read as itself, and not as a date or a time. -/
theorem readInt_of_spells {n : Int} {ts rest : List Char} (h : SpellsInt n ts) (hr : Stops rest) :
    readDateTime (ts ++ rest) = none ∧ readNumber (ts ++ rest) = some (.int n, rest) := by
  cases h with
  | @plain n ts hn hd =>
    refine ⟨readDateTime_digits hd hr, ?_⟩
    rw [readNumber]
    · exact decimalNumber_of_spells (signOf_of_spells hd rest) hd hr (by simpa using hn)
    all_goals exact fun r => ne_radix_of_spells hd hr (by decide) r
  | @plus n ts hn hd =>
    refine ⟨readDateTime_sign rfl _, ?_⟩
    rw [List.cons_append, readNumber]
    · have hsign : signOf ('+' :: (ts ++ rest)) = (false, ts ++ rest) := rfl
      exact decimalNumber_of_spells hsign hd hr (by simpa using hn)
    all_goals simp
  | @minus n ts hn hd =>
    refine ⟨readDateTime_sign rfl _, ?_⟩
    rw [List.cons_append, readNumber]
    · have hsign : signOf ('-' :: (ts ++ rest)) = (true, ts ++ rest) := rfl
      exact decimalNumber_of_spells hsign hd hr (by simpa using hn)
    all_goals simp

/-! ## Blanks, comments and line ends -/

/-- Blanks inside a line. -/
def Blanks (cs : List Char) : Prop := ∀ c ∈ cs, c = ' ' ∨ c = '\t'

/-- The end of a line. -/
inductive LineEnd : List Char → Prop
  | lf : LineEnd ['\n']
  | crlf : LineEnd ['\r', '\n']

/-- A comment up to the end of its line, or none. -/
inductive Comment : List Char → Prop
  | none : Comment []
  | text {cs} : (∀ c ∈ cs, isTextChar c = true) → Comment ('#' :: cs)

/-- What may stand between the parts of a list: blanks, line ends and comments. -/
inductive Filler : List Char → Prop
  | nil : Filler []
  | blank {c cs} : c = ' ' ∨ c = '\t' → Filler cs → Filler (c :: cs)
  | line {c e cs} : Comment c → LineEnd e → Filler cs → Filler (c ++ e ++ cs)

theorem blanks_nil : Blanks [] := by simp [Blanks]

theorem skipBlanks_append {b : List Char} (hb : Blanks b) (cs : List Char) :
    skipBlanks (b ++ cs) = skipBlanks cs := by
  induction b with
  | nil => rfl
  | cons c b ih =>
    have hc : c = ' ' ∨ c = '\t' := hb c (by simp)
    rw [List.cons_append, skipBlanks, if_pos hc, ih (fun x hx => hb x (by simp [hx]))]

/-- A text that does not start with a blank. -/
def Sharp (cs : List Char) : Prop := ∀ c ∈ cs.head?, c ≠ ' ' ∧ c ≠ '\t'

theorem skipBlanks_sharp {cs : List Char} (h : Sharp cs) : skipBlanks cs = cs := by
  cases cs with
  | nil => rfl
  | cons c cs =>
    have hc := h c rfl
    rw [skipBlanks, if_neg (not_or.mpr hc)]

theorem skipBlanks_blanks {b cs : List Char} (hb : Blanks b) (h : Sharp cs) :
    skipBlanks (b ++ cs) = cs := by
  rw [skipBlanks_append hb, skipBlanks_sharp h]

theorem sharp_cons {c : Char} (h : c ≠ ' ' ∧ c ≠ '\t') (cs : List Char) : Sharp (c :: cs) := by
  intro d hd
  obtain rfl : c = d := by simpa using hd
  exact h

theorem LineEnd.sharp {e : List Char} (h : LineEnd e) (cs : List Char) : Sharp (e ++ cs) := by
  cases h <;> exact sharp_cons (by decide) _

theorem skipComment_append {c e : List Char} (hc : Comment c) (he : LineEnd e) (cs : List Char) :
    skipComment (c ++ (e ++ cs)) = e ++ cs := by
  cases hc with
  | none => cases he <;> rfl
  | text ht =>
    have hstop : (e ++ cs).dropWhile isTextChar = e ++ cs := by cases he <;> rfl
    rw [List.cons_append, skipComment, List.dropWhile_append_of_pos ht, hstop]

/-- What a list goes on with after filler: nothing that filler is made of. -/
def Solid (cs : List Char) : Prop :=
  ∀ c ∈ cs.head?, c ∉ [' ', '\t', '\n', '\r', '#']

theorem Solid.sharp {cs : List Char} (h : Solid cs) : Sharp cs := by
  intro c hc
  have := h c hc
  simp only [List.mem_cons, not_or] at this
  exact ⟨this.1, this.2.1⟩

theorem skipFiller_solid {cs : List Char} (h : Solid cs) (fuel : Nat) :
    skipFiller fuel cs = cs := by
  cases fuel with
  | zero => rfl
  | succ fuel =>
    rw [skipFiller, skipBlanks_sharp h.sharp]
    cases cs with
    | nil => rfl
    | cons c cs =>
      have hc := h c rfl
      simp only [List.mem_cons, not_or] at hc
      have hn : lineEnd? (c :: cs) = none := by
        rw [lineEnd?]
        · exact fun _ h => absurd (List.cons.inj h).1 hc.2.2.1
        · exact fun _ h => absurd (List.cons.inj h).1 hc.2.2.2.1
      split
      · rename_i heq; exact absurd (List.cons.inj heq).1 hc.2.2.2.2.1
      · rw [hn]

theorem LineEnd.length_pos {e : List Char} (h : LineEnd e) : 0 < e.length := by
  cases h <;> simp

theorem skipFiller_line {e : List Char} (he : LineEnd e) (cs : List Char) (fuel : Nat) :
    skipFiller (fuel + 1) (e ++ cs) = skipFiller fuel cs := by
  rw [skipFiller, skipBlanks_sharp (he.sharp cs)]
  cases he <;> rfl

theorem skipFiller_append {f cs : List Char} (hf : Filler f) (h : Solid cs) (fuel : Nat)
    (hl : f.length ≤ fuel) : skipFiller fuel (f ++ cs) = cs := by
  induction hf generalizing fuel with
  | nil => exact skipFiller_solid h fuel
  | @blank c f hc _ ih =>
    obtain ⟨fuel, rfl⟩ : ∃ n, fuel = n + 1 := ⟨fuel - 1, by simp at hl; omega⟩
    have hskip : skipFiller (fuel + 1) (c :: (f ++ cs)) = skipFiller (fuel + 1) (f ++ cs) := by
      rw [skipFiller, skipFiller, skipBlanks, if_pos hc]
    rw [List.cons_append, hskip]
    exact ih (fuel + 1) (by simp at hl; omega)
  | @line c e f hc he _ ih =>
    have hpos := he.length_pos
    simp only [List.length_append] at hl
    obtain ⟨fuel, rfl⟩ : ∃ n, fuel = n + 1 := ⟨fuel - 1, by omega⟩
    rw [List.append_assoc, List.append_assoc]
    cases hc with
    | none => rw [List.nil_append, skipFiller_line he, ih fuel (by omega)]
    | @text t ht =>
      rw [List.length_cons] at hl
      obtain ⟨fuel, rfl⟩ : ∃ n, fuel = n + 1 := ⟨fuel - 1, by omega⟩
      have hcomment := skipComment_append (.text ht) he (f ++ cs)
      rw [List.cons_append] at hcomment ⊢
      rw [skipFiller, skipBlanks_sharp (sharp_cons (by decide) _)]
      simp only [hcomment]
      rw [skipFiller_line he, ih fuel (by omega)]

/-! ## Keys -/

/-- How a part of a key is written: bare or quoted. -/
inductive SpellsKey : String → List Char → Prop
  | bare {cs} : cs ≠ [] → (∀ c ∈ cs, isBareKeyChar c = true) → SpellsKey (String.ofList cs) cs
  | quoted {k ks} : SpellsString k ks → SpellsKey k ks

/-- How a key is written: its parts with points between them, and blanks around. -/
inductive SpellsPath : List String → List Char → Prop
  | one {b k ks b'} : Blanks b → SpellsKey k ks → Blanks b' → SpellsPath [k] (b ++ ks ++ b')
  | cons {b k ks b' path ts} : Blanks b → SpellsKey k ks → Blanks b' → SpellsPath path ts →
      SpellsPath (k :: path) (b ++ ks ++ b' ++ '.' :: ts)

/-- What may follow a part of a key. -/
def KeyStops (cs : List Char) : Prop := ∀ c ∈ cs.head?, isBareKeyChar c = false

theorem simpleKey_of_spells {k : String} {ks rest : List Char} (h : SpellsKey k ks)
    (hr : KeyStops rest) : simpleKey (ks ++ rest) = some (k, rest) := by
  cases h with
  | bare hne hc =>
    obtain ⟨c, cs, rfl⟩ := List.exists_cons_of_ne_nil hne
    have hhead := hc c (by simp)
    have hq : c ≠ '"' := by rintro rfl; simp [isBareKeyChar] at hhead
    have ha : c ≠ '\'' := by rintro rfl; simp [isBareKeyChar] at hhead
    have htake : (c :: cs ++ rest).takeWhile isBareKeyChar = c :: cs := by
      have hnil : rest.takeWhile isBareKeyChar = [] := by
        cases rest with
        | nil => rfl
        | cons d ds => simp [List.takeWhile, hr d rfl]
      rw [List.takeWhile_append_of_pos hc, hnil, List.append_nil]
    rw [List.cons_append] at htake ⊢
    rw [simpleKey]
    · simp [htake]
    · exact fun _ h => absurd (List.cons.inj h).1 hq
    · exact fun _ h => absurd (List.cons.inj h).1 ha
  | quoted hs =>
    cases hs with
    | basic hs =>
      rw [List.cons_append, List.append_assoc, List.singleton_append, simpleKey,
        basicString_of_spells hs (by simp only [List.length_append, List.length_cons]; omega)]
      rfl
    | literal hs =>
      rw [List.cons_append, List.append_assoc, List.singleton_append, simpleKey,
        literalString_of_spells hs]
      rfl

theorem SpellsKey.head {k : String} {ks : List Char} (h : SpellsKey k ks) :
    ∃ c cs, ks = c :: cs ∧ (isBareKeyChar c = true ∨ c = '"' ∨ c = '\'') := by
  cases h with
  | bare hne hc =>
    obtain ⟨c, cs, rfl⟩ := List.exists_cons_of_ne_nil hne
    exact ⟨c, cs, rfl, .inl (hc c (by simp))⟩
  | quoted hs =>
    cases hs with
    | basic _ => exact ⟨_, _, rfl, .inr (.inl rfl)⟩
    | literal _ => exact ⟨_, _, rfl, .inr (.inr rfl)⟩

theorem SpellsKey.sharp {k : String} {ks : List Char} (h : SpellsKey k ks) (cs : List Char) :
    Sharp (ks ++ cs) := by
  obtain ⟨c, ks, rfl, hc⟩ := h.head
  refine sharp_cons ⟨?_, ?_⟩ _ <;> rintro rfl <;> simp [isBareKeyChar] at hc

theorem keyStops_blanks {b cs : List Char} (hb : Blanks b) (h : KeyStops cs) :
    KeyStops (b ++ cs) := by
  cases b with
  | nil => exact h
  | cons c b =>
    intro d hd
    obtain rfl : c = d := by simpa using hd
    rcases hb c (by simp) with rfl | rfl <;> decide

theorem keyParts_of_spells {path : List String} {ts rest : List Char} (h : SpellsPath path ts)
    {fuel : Nat} (hf : ts.length < fuel) (hr : KeyStops rest) (hs : Sharp rest)
    (hdot : ∀ c ∈ rest.head?, c ≠ '.') : keyParts fuel (ts ++ rest) = some (path, rest) := by
  induction h generalizing fuel with
  | @one b k ks b' hb hk hb' =>
    obtain ⟨fuel, rfl⟩ : ∃ n, fuel = n + 1 := ⟨fuel - 1, by omega⟩
    have hread := simpleKey_of_spells hk (keyStops_blanks hb' hr)
    simp only [List.append_assoc]
    rw [keyParts, skipBlanks_blanks hb (hk.sharp _), hread]
    simp only [Option.bind_eq_bind, Option.bind_some, skipBlanks_blanks hb' hs]
    split
    · exact absurd rfl (hdot _ rfl)
    · rfl
  | @cons b k ks b' path ts hb hk hb' _ ih =>
    simp only [List.length_append, List.length_cons] at hf
    obtain ⟨fuel, rfl⟩ : ∃ n, fuel = n + 1 := ⟨fuel - 1, by omega⟩
    have hread := simpleKey_of_spells hk
      (keyStops_blanks hb' (show KeyStops ('.' :: (ts ++ rest)) by simp [KeyStops, isBareKeyChar]))
    simp only [List.append_assoc, List.cons_append]
    rw [keyParts, skipBlanks_blanks hb (hk.sharp _), hread]
    simp only [Option.bind_eq_bind, Option.bind_some,
      skipBlanks_blanks hb' (sharp_cons (show '.' ≠ ' ' ∧ '.' ≠ '\t' by decide) _)]
    rw [ih (by omega)]
    rfl

theorem readKey_of_spells {path : List String} {ts rest : List Char} (h : SpellsPath path ts)
    (hl : path.length < nestingBound) (hr : KeyStops rest) (hs : Sharp rest)
    (hdot : ∀ c ∈ rest.head?, c ≠ '.') : readKey (ts ++ rest) = some (path, rest) := by
  rw [readKey, keyParts_of_spells h (by rw [List.length_append]; omega) hr hs hdot]
  simp [hl]

/-! ## Values -/

mutual

/-- How a value is written at a depth of nesting. -/
inductive Spells : Nat → Datum → List Char → Prop
  | yes {n} : Spells n (.bool true) ['t', 'r', 'u', 'e']
  | no {n} : Spells n (.bool false) ['f', 'a', 'l', 's', 'e']
  | int {n i ts} : SpellsInt i ts → Spells n (.int i) ts
  | string {n s ts} : SpellsString s ts → Spells n (.string s) ts
  | seq {n ds ts} : n + 1 < nestingBound → SpellsItems (n + 1) ds ts →
      Spells n (.seq ds) ('[' :: (ts ++ [']']))
  | emptyTable {n b} : n + 1 < nestingBound → Blanks b →
      Spells n (.map []) ('\x7b' :: (b ++ ['\x7d']))
  | table {n ms b ts} : n + 1 < nestingBound → (ms.map (·.1)).Nodup → Blanks b →
      SpellsPairs (n + 1) ms ts → Spells n (object ms) ('\x7b' :: (b ++ ts ++ ['\x7d']))

/-- Items of a list; a comma may follow the last one. -/
inductive SpellsItems : Nat → List Datum → List Char → Prop
  | nil {n f} : Filler f → SpellsItems n [] f
  | one {n d f ts g} : Filler f → Spells n d ts → Filler g → SpellsItems n [d] (f ++ ts ++ g)
  | cons {n d ds f ts g us} : Filler f → Spells n d ts → Filler g → SpellsItems n ds us →
      SpellsItems n (d :: ds) (f ++ ts ++ g ++ ',' :: us)

/-- Pairs of a table in braces. -/
inductive SpellsPairs : Nat → List (String × Datum) → List Char → Prop
  | one {n k d ks b c ts c'} : SpellsKey k ks → Blanks b → Blanks c → Spells n d ts → Blanks c' →
      SpellsPairs n [(k, d)] (ks ++ b ++ '=' :: (c ++ ts ++ c'))
  | cons {n k d ms ks b c ts c' a us} : SpellsKey k ks → Blanks b → Blanks c → Spells n d ts →
      Blanks c' → Blanks a → SpellsPairs n ms us →
      SpellsPairs n ((k, d) :: ms) (ks ++ b ++ '=' :: (c ++ ts ++ c' ++ ',' :: (a ++ us)))

end

theorem Spells.head {n : Nat} {d : Datum} {ts : List Char} (h : Spells n d ts) :
    ∃ c cs, ts = c :: cs ∧ c ∉ [' ', '\t', '\n', '\r', '#', ']'] := by
  cases h with
  | int hi =>
    obtain ⟨c, cs, rfl, hc | rfl | rfl⟩ := hi.head
    · refine ⟨c, cs, rfl, ?_⟩
      intro hmem
      simp only [List.mem_cons, List.not_mem_nil, or_false] at hmem
      rcases hmem with rfl | rfl | rfl | rfl | rfl | rfl <;> simp at hc
    · exact ⟨_, _, rfl, by decide⟩
    · exact ⟨_, _, rfl, by decide⟩
  | string hs => cases hs <;> exact ⟨_, _, rfl, by decide⟩
  | _ => exact ⟨_, _, rfl, by decide⟩

theorem Spells.solid {n : Nat} {d : Datum} {ts : List Char} (h : Spells n d ts) (cs : List Char) :
    Solid (ts ++ cs) := by
  obtain ⟨c, ts, rfl, hc⟩ := h.head
  intro e he
  obtain rfl : c = e := by simpa using he
  simp only [List.mem_cons, not_or] at hc ⊢
  exact ⟨hc.1, hc.2.1, hc.2.2.1, hc.2.2.2.1, hc.2.2.2.2.1, by simp⟩

theorem stops_append {b cs : List Char}
    (hb : ∀ c ∈ b.head?, c ∈ [' ', '\t', '\n', '\r', '#', ',', ']', '\x7d']) (h : Stops cs) :
    Stops (b ++ cs) := by
  cases b with
  | nil => exact h
  | cons c b => exact fun d hd => hb d (by simpa using hd)

theorem stops_blanks {b cs : List Char} (hb : Blanks b) (h : Stops cs) : Stops (b ++ cs) := by
  refine stops_append ?_ h
  intro c hc
  rcases hb c (List.mem_of_mem_head? hc) with rfl | rfl <;> simp

theorem stops_filler {f cs : List Char} (hf : Filler f) (h : Stops cs) : Stops (f ++ cs) := by
  refine stops_append ?_ h
  intro c hc
  cases hf with
  | nil => simp at hc
  | blank hb _ =>
    simp only [List.head?_cons, Option.mem_some_iff] at hc
    subst hc
    rcases hb with rfl | rfl <;> simp
  | line ht he _ =>
    cases ht <;> cases he <;> simp at hc <;> subst hc <;> simp

theorem stops_cons {c : Char} (hc : c ∈ [' ', '\t', '\n', '\r', '#', ',', ']', '\x7d'])
    (cs : List Char) : Stops (c :: cs) := by
  intro d hd
  obtain rfl : c = d := by simpa using hd
  exact hc

theorem solid_cons {c : Char} (hc : c ∉ [' ', '\t', '\n', '\r', '#']) (cs : List Char) :
    Solid (c :: cs) := by
  intro d hd
  obtain rfl : c = d := by simpa using hd
  exact hc

/-! ### Entries of tables -/

/-- The keys of entries. -/
def keys (es : Entries) : List String := es.map (·.1)

/-- Entries that hold plain data. -/
def valueEntries (ms : List (String × Datum)) : Entries := ms.map fun (k, d) => (k, .value d)

theorem lookup_cons (key k : String) (n : Node) (es : Entries) :
    lookup key ((k, n) :: es) = if k = key then some n else lookup key es := by
  by_cases h : k = key <;> simp [lookup, h]

theorem lookup_eq_none {key : String} {es : Entries} : lookup key es = none ↔ key ∉ keys es := by
  induction es with
  | nil => simp [lookup, keys]
  | cons e es ih =>
    obtain ⟨k, n⟩ := e
    rw [lookup_cons, keys, List.map_cons, List.mem_cons, not_or]
    by_cases hk : k = key
    · simp [hk]
    · rw [if_neg hk, ih]
      simp [keys, Ne.symm hk]

theorem put_new {key : String} {es : Entries} (h : key ∉ keys es) (n : Node) :
    put key n es = es ++ [(key, n)] := by
  induction es with
  | nil => rfl
  | cons e es ih =>
    obtain ⟨k, m⟩ := e
    simp only [keys, List.map_cons, List.mem_cons, not_or] at h
    rw [put, if_neg (Ne.symm h.1), ih h.2]
    rfl

theorem define_new {key : String} {es : Entries} (h : key ∉ keys es) (d : Datum) {o : Origin}
    (ho : o ≠ .dotted) : define false key d o es = some (es ++ [(key, .value d)]) := by
  simp [define, ho, lookup_eq_none.mpr h, put_new h]

theorem addValue_plain {key : String} {es : Entries} (h : key ∉ keys es) (d : Datum) :
    addValue [] [key] d es = some (es ++ [(key, .value d)]) := by
  simpa [addValue, modifyAt] using define_new h d (o := .header) (by simp)

theorem entriesToDatum_values (ms : List (String × Datum)) :
    entriesToDatum (valueEntries ms) = ms.map fun (k, d) => (string k, d) := by
  induction ms with
  | nil => rfl
  | cons m ms ih =>
    rw [valueEntries, List.map_cons] at *
    simp only [entriesToDatum, Node.toDatum, List.map_cons]
    exact congrArg _ ih

/-! ### Reading -/

/-- The value function at a number: no other form of value starts like one. -/
theorem value_int {i : Int} {ts rest : List Char} (h : SpellsInt i ts) (hr : Stops rest)
    (fuel n : Nat) : value (fuel + 1) n (ts ++ rest) = some (.int i, rest) := by
  obtain ⟨hdate, hnum⟩ := readInt_of_spells h hr
  obtain ⟨c, cs, rfl, hc⟩ := h.head
  have hother : ∀ d : Char, d.isDigit = false → d ≠ '+' → d ≠ '-' → c ≠ d := by
    rintro d hd hp hm rfl
    rcases hc with hc | rfl | rfl
    · rw [hd] at hc; cases hc
    · exact hp rfl
    · exact hm rfl
  rw [List.cons_append] at hdate hnum ⊢
  rw [value]
  · simp only [hdate, hnum]
  all_goals
    intros
    rename_i heq
    exact absurd (List.cons.inj heq).1 (hother _ (by decide) (by decide) (by decide))

theorem keyStops_cons {c : Char} (hc : isBareKeyChar c = false) (cs : List Char) :
    KeyStops (c :: cs) := by
  intro d hd
  obtain rfl : c = d := by simpa using hd
  exact hc

/-- The key of a pair, up to the sign that follows it. -/
theorem readKey_pair {k : String} {a ks b : List Char} (ha : Blanks a) (hk : SpellsKey k ks)
    (hb : Blanks b) (cs : List Char) :
    readKey (a ++ (ks ++ (b ++ '=' :: cs))) = some ([k], '=' :: cs) := by
  have h := readKey_of_spells (.one ha hk hb) (by simp [nestingBound])
    (keyStops_cons (show isBareKeyChar '=' = false by decide) cs) (sharp_cons (by decide) cs)
    (by simp)
  simpa using h

theorem inlinePairs_pair {k : String} {a ks b c ts : List Char} (ha : Blanks a)
    (hk : SpellsKey k ks) (hb : Blanks b) (hc : Blanks c) {d : Datum} {fuel n : Nat}
    {rest : List Char} {es : Entries} (hv : value fuel n ts = some (d, rest))
    (hsharp : Sharp ts) (hnew : k ∉ keys es) :
    inlinePairs (fuel + 1) n (a ++ (ks ++ (b ++ '=' :: (c ++ ts)))) es =
      match skipBlanks rest with
      | ',' :: rest => inlinePairs fuel n rest (es ++ [(k, .value d)])
      | '\x7d' :: rest => some (es ++ [(k, .value d)], rest)
      | _ => none := by
  rw [inlinePairs, readKey_pair ha hk hb]
  simp only [Option.bind_eq_bind, Option.bind_some, after?, if_true, skipBlanks_blanks hc hsharp, hv,
    addValue_plain hnew]
  rfl

/-- How an item is read: up to the bracket that ends the list, or the comma before the others. -/
theorem arrayItems_item {n fuel : Nat} {f ts rest : List Char} {d : Datum} {c : Char}
    {cs : List Char}
    (hfil : Filler f) (hts : ts = c :: cs) (hc : c ∉ [' ', '\t', '\n', '\r', '#', ']'])
    (hv : value fuel n ts = some (d, rest)) :
    (∀ r, skipFiller rest.length rest = ']' :: r →
      arrayItems (fuel + 1) n (f ++ ts) = some ([d], r)) ∧
    ∀ r ds out, skipFiller rest.length rest = ',' :: r → arrayItems fuel n r = some (ds, out) →
      arrayItems (fuel + 1) n (f ++ ts) = some (d :: ds, out) := by
  subst hts
  simp only [List.mem_cons, List.not_mem_nil, or_false, not_or] at hc
  have hsolid : Solid (c :: cs) := solid_cons (by simp [hc]) cs
  have hne : ∀ r, c :: cs ≠ ']' :: r := fun r heq => hc.2.2.2.2.2 (List.cons.inj heq).1
  rw [arrayItems, skipFiller_append hfil hsolid _ (by simp)]
  constructor
  · intro r hr
    simp [hv, hr]
  · intro r ds out hr hrest
    simp [hv, hr, hrest]

theorem SpellsPairs.head {n : Nat} {ms : List (String × Datum)} {ts : List Char}
    (h : SpellsPairs n ms ts) (rest : List Char) :
    Sharp (ts ++ rest) ∧ ∀ cs, ts ++ rest ≠ '\x7d' :: cs := by
  have key : ∀ {k ks}, SpellsKey k ks →
      ∀ cs, Sharp (ks ++ cs) ∧ ∀ cs', ks ++ cs ≠ '\x7d' :: cs' := by
    intro k ks hk cs
    refine ⟨hk.sharp cs, ?_⟩
    intro cs' heq
    obtain ⟨c, ks, rfl, hc⟩ := hk.head
    rw [(List.cons.inj heq).1] at hc
    simp [isBareKeyChar] at hc
  cases h with
  | one hk _ _ _ _ => simpa only [List.append_assoc] using key hk _
  | cons hk _ _ _ _ _ _ => simpa only [List.append_assoc] using key hk _

mutual

theorem value_of_spells {n : Nat} {d : Datum} {ts : List Char} (h : Spells n d ts) (fuel : Nat)
    (rest : List Char) (hf : 2 * ts.length ≤ fuel) (hr : Stops rest) :
    value fuel n (ts ++ rest) = some (d, rest) := by
  obtain ⟨fuel, rfl⟩ : ∃ f, fuel = f + 1 := by
    obtain ⟨c, cs, rfl, -⟩ := h.head
    rw [List.length_cons] at hf
    exact ⟨fuel - 1, by omega⟩
  match h with
  | .yes | .no => rfl
  | .int hi => exact value_int hi hr fuel n
  | .string hs =>
    have hread := readString_of_spells hs hr
    cases hs <;>
    · rw [List.cons_append] at hread ⊢
      simp only [value, hread, Option.bind_eq_bind, Option.bind_some]
      rfl
  | .seq hn hi =>
    simp only [List.length_cons, List.length_append] at hf
    have hitems := arrayItems_of_spells hi fuel rest (by omega)
    simp [value, hn, hitems]
  | .emptyTable hn hb =>
    have hskip :=
      skipBlanks_blanks hb (sharp_cons (show '\x7d' ≠ ' ' ∧ '\x7d' ≠ '\t' by decide) rest)
    simp [value, hn, hskip]
  | @Spells.table _ ms b ts hn hd hb hp =>
    simp only [List.length_cons, List.length_append] at hf
    have hpairs :=
      inlinePairs_of_spells hp fuel rest [] (by omega) blanks_nil (by simpa [keys] using hd)
    obtain ⟨hsharp, hne⟩ := hp.head ('\x7d' :: rest)
    have htext :
        '\x7b' :: (b ++ ts ++ ['\x7d']) ++ rest = '\x7b' :: (b ++ (ts ++ '\x7d' :: rest)) := by
      simp
    rw [htext, value]
    simp only [hn, if_true, skipBlanks_blanks hb hsharp]
    rw [List.nil_append] at hpairs
    simp only [hpairs, Option.bind_eq_bind, Option.bind_some, List.nil_append, entriesToDatum_values]
    rfl

theorem arrayItems_of_spells {n : Nat} {ds : List Datum} {ts : List Char} (h : SpellsItems n ds ts)
    (fuel : Nat) (rest : List Char) (hf : 2 * ts.length + 1 ≤ fuel) :
    arrayItems fuel n (ts ++ ']' :: rest) = some (ds, rest) := by
  obtain ⟨fuel, rfl⟩ : ∃ f, fuel = f + 1 := ⟨fuel - 1, by omega⟩
  match h with
  | .nil hfil =>
    rw [arrayItems, skipFiller_append hfil (solid_cons (by decide) rest) _ (by simp)]
    rfl
  | @SpellsItems.one _ _ f ts g hfil hv hg =>
    simp only [List.length_append] at hf
    have hval := value_of_spells hv fuel (g ++ ']' :: rest) (by omega)
      (stops_filler hg (stops_cons (by decide) rest))
    have hskip := skipFiller_append hg (solid_cons (show ']' ∉ _ by decide) rest)
      (g ++ ']' :: rest).length (by simp)
    obtain ⟨c, cs, rfl, hc⟩ := hv.head
    have hitem := (arrayItems_item hfil rfl hc hval).1 rest hskip
    simpa using hitem
  | @SpellsItems.cons _ _ _ f ts g us hfil hv hg hi =>
    simp only [List.length_append, List.length_cons] at hf
    have hval := value_of_spells hv fuel (g ++ ',' :: (us ++ ']' :: rest))
      (by omega) (stops_filler hg (stops_cons (by decide) _))
    have hskip := skipFiller_append hg (solid_cons (show ',' ∉ _ by decide) (us ++ ']' :: rest))
      (g ++ ',' :: (us ++ ']' :: rest)).length (by simp)
    have hrest := arrayItems_of_spells hi fuel rest (by omega)
    obtain ⟨c, cs, rfl, hc⟩ := hv.head
    have hitem := (arrayItems_item hfil rfl hc hval).2 _ _ _ hskip hrest
    simpa using hitem

theorem inlinePairs_of_spells {n : Nat} {ms : List (String × Datum)} {ts : List Char}
    (h : SpellsPairs n ms ts) (fuel : Nat) {a : List Char} (rest : List Char) (es : Entries)
    (hf : 2 * ts.length + 1 ≤ fuel) (ha : Blanks a)
    (hd : (keys es ++ ms.map (·.1)).Nodup) :
    inlinePairs fuel n (a ++ (ts ++ '\x7d' :: rest)) es = some (es ++ valueEntries ms, rest) := by
  obtain ⟨fuel, rfl⟩ : ∃ f, fuel = f + 1 := ⟨fuel - 1, by omega⟩
  match h with
  | @SpellsPairs.one _ k _ ks b c ts c' hk hb hc hv hc' =>
    simp only [List.length_append, List.length_cons] at hf
    have hval := value_of_spells hv fuel (c' ++ '\x7d' :: rest) (by omega)
      (stops_blanks hc' (stops_cons (by decide) rest))
    have hnew : k ∉ keys es := by
      rw [List.nodup_append] at hd
      exact fun hin => hd.2.2 k hin k (by simp) rfl
    have hpair := inlinePairs_pair ha hk hb hc hval (hv.solid _).sharp hnew
    rw [skipBlanks_blanks hc' (sharp_cons (by decide) rest)] at hpair
    simpa [valueEntries] using hpair
  | @SpellsPairs.cons _ k d ms ks b c ts c' a' us hk hb hc hv hc' ha' hp =>
    simp only [List.length_append, List.length_cons] at hf
    have hval := value_of_spells hv fuel (c' ++ ',' :: (a' ++ (us ++ '\x7d' :: rest)))
      (by omega) (stops_blanks hc' (stops_cons (by decide) _))
    have hnew : k ∉ keys es := by
      rw [List.nodup_append] at hd
      exact fun hin => hd.2.2 k hin k (by simp) rfl
    have hpair := inlinePairs_pair ha hk hb hc hval (hv.solid _).sharp hnew
    rw [skipBlanks_blanks hc' (sharp_cons (by decide) _)] at hpair
    have hrest := inlinePairs_of_spells hp fuel rest (es ++ [(k, .value d)]) (by omega) ha'
      (by simpa [keys] using hd)
    simp only [hrest] at hpair
    simpa [valueEntries] using hpair

end

/-! ## What can be written is whole -/

mutual

theorem Spells.isWhole {n : Nat} {d : Datum} {ts : List Char} (h : Spells n d ts) :
    d.isWhole = true :=
  match h with
  | .yes | .no | .int _ | .string _ | .emptyTable _ _ => rfl
  | .seq _ hi => (itemsWhole_iff _).mpr hi.isWhole
  | .table _ _ _ hp => (isWhole_object _).mpr hp.isWhole

theorem SpellsItems.isWhole {n : Nat} {ds : List Datum} {ts : List Char} (h : SpellsItems n ds ts) :
    ∀ d ∈ ds, d.isWhole = true :=
  match h with
  | .nil _ => by simp
  | .one _ hd _ => by simpa using hd.isWhole
  | .cons _ hd _ hi => List.forall_mem_cons.mpr ⟨hd.isWhole, hi.isWhole⟩

theorem SpellsPairs.isWhole {n : Nat} {ms : List (String × Datum)} {ts : List Char}
    (h : SpellsPairs n ms ts) : ∀ m ∈ ms, m.2.isWhole = true :=
  match h with
  | .one _ _ _ hd _ => by simpa using hd.isWhole
  | .cons _ _ _ hd _ _ hp => List.forall_mem_cons.mpr ⟨hd.isWhole, hp.isWhole⟩

end

end WasmHost.Datum.Toml
