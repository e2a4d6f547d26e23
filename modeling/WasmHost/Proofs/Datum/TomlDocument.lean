import WasmHost.Proofs.Datum.TomlText

/-!
# Documents of TOML

A document is read line by line. Each line is a pair or a header, with blanks and a comment around
it, or says nothing; what the lines do to the tables found so far is performed in their order.
-/

namespace WasmHost.Datum.Toml

/-! ## Lines -/

/-- What a line of a document says. -/
inductive Line where
  | pair (key : String) (d : Datum)
  /-- The header of a table. -/
  | table (path : List String)
  /-- The header of one more table of an array. -/
  | item (path : List String)

/-- How a line is written, without what may stand around it. -/
inductive SpellsLine : Line → List Char → Prop
  | pair {k d ks b c ts} : SpellsKey k ks → Blanks b → Blanks c → Spells 0 d ts →
      SpellsLine (.pair k d) (ks ++ b ++ '=' :: (c ++ ts))
  | table {path ts} : path.length < nestingBound → SpellsPath path ts →
      SpellsLine (.table path) ('[' :: (ts ++ [']']))
  | item {path ts} : path.length < nestingBound → SpellsPath path ts →
      SpellsLine (.item path) ('[' :: '[' :: (ts ++ [']', ']']))

mutual

/-- Lines with blanks before them; a line may be empty or hold only a comment. -/
inductive SpellsLines : List Line → List Char → Prop
  | empty {ls ts} : SpellsRest ls ts → SpellsLines ls ts
  | line {b l t ls ts} : Blanks b → SpellsLine l t → SpellsRest ls ts →
      SpellsLines (l :: ls) (b ++ t ++ ts)

/-- The rest of a line and the lines after it. The last line needs no end. -/
inductive SpellsRest : List Line → List Char → Prop
  | last {b c} : Blanks b → Comment c → SpellsRest [] (b ++ c)
  | next {b c e ls ts} : Blanks b → Comment c → LineEnd e → SpellsLines ls ts →
      SpellsRest ls (b ++ c ++ e ++ ts)

end

/-- What lines do to the tables found so far. -/
def performAll : List Line → List String → Entries → Option Entries
  | [], _, root => some root
  | .pair key d :: ls, header, root => addValue header [key] d root >>= performAll ls header
  | .table path :: ls, _, root => openTable path root >>= performAll ls path
  | .item path :: ls, _, root => openArrayTable path root >>= performAll ls path

theorem skipBlanks_comment {b c cs : List Char} (hb : Blanks b) (hc : Comment c) (hs : Sharp cs) :
    skipBlanks (b ++ (c ++ cs)) = c ++ cs := by
  refine skipBlanks_blanks hb ?_
  cases hc with
  | none => exact hs
  | text _ => exact sharp_cons (by decide) _

theorem endOfLine_next {b c e : List Char} (hb : Blanks b) (hc : Comment c) (he : LineEnd e)
    (cs : List Char) : endOfLine (b ++ (c ++ (e ++ cs))) = some cs := by
  rw [endOfLine, skipBlanks_comment hb hc (he.sharp cs), skipComment_append hc he]
  cases he <;> rfl

theorem endOfLine_last {b c : List Char} (hb : Blanks b) (hc : Comment c) :
    endOfLine (b ++ c) = some [] := by
  have hskip := skipBlanks_comment hb hc (show Sharp [] by simp [Sharp])
  rw [List.append_nil] at hskip
  rw [endOfLine, hskip]
  cases hc with
  | none => rfl
  | text ht =>
    have hall := @List.dropWhile_append_of_pos _ isTextChar _ [] ht
    simp only [List.append_nil, List.dropWhile_nil] at hall
    simp [skipComment, hall]

theorem lines_nil (fuel : Nat) (header : List String) (root : Entries) :
    lines fuel header root [] = some root := by
  cases fuel <;> rfl

theorem LineEnd.stops {e : List Char} (h : LineEnd e) (cs : List Char) : Stops (e ++ cs) := by
  cases h <;> exact stops_cons (by decide) _

theorem SpellsRest.stops {ls : List Line} {ts : List Char} (h : SpellsRest ls ts) : Stops ts := by
  have comment : ∀ {c cs}, Comment c → Stops cs → Stops (c ++ cs) := by
    intro c cs hc hs
    cases hc with
    | none => exact hs
    | text _ => exact stops_cons (by decide) _
  cases h with
  | last hb hc =>
    have := stops_blanks hb (comment hc (show Stops [] by simp [Stops]))
    simpa using this
  | next hb hc he _ =>
    simpa using stops_blanks hb (comment hc (he.stops _))

/-- The header of a table is no header of an array: its key does not start with a bracket. -/
theorem SpellsPath.head_ne {path : List String} {ts : List Char} (h : SpellsPath path ts)
    (rest cs : List Char) : ts ++ rest ≠ '[' :: cs := by
  have key : ∀ {b k ks}, Blanks b → SpellsKey k ks → ∀ rest, b ++ ks ++ rest ≠ '[' :: cs := by
    intro b k ks hb hk rest heq
    cases b with
    | nil =>
      obtain ⟨c, ks, rfl, hc⟩ := hk.head
      rw [(List.cons.inj heq).1] at hc
      simp [isBareKeyChar] at hc
    | cons c b =>
      have := hb c (by simp)
      rw [(List.cons.inj heq).1] at this
      simp at this
  cases h with
  | one hb hk _ => simpa only [List.append_assoc] using key hb hk _
  | cons hb hk _ _ => simpa only [List.append_assoc] using key hb hk _

theorem lines_header {path : List String} {ts rest rest' : List Char} (h : SpellsPath path ts)
    (hl : path.length < nestingBound) {b : List Char} (hb : Blanks b)
    (hend : endOfLine rest = some rest')
    (fuel : Nat) (header : List String) (root : Entries) :
    lines (fuel + 1) header root (b ++ '[' :: (ts ++ ']' :: rest)) =
      openTable path root >>= fun root => lines fuel path root rest' := by
  have hkey : readKey (ts ++ ']' :: rest) = some (path, ']' :: rest) :=
    readKey_of_spells h hl (keyStops_cons (by decide) rest) (sharp_cons (by decide) rest) (by simp)
  have hne := h.head_ne (']' :: rest)
  rw [lines, skipBlanks_blanks hb (sharp_cons (by decide) _)]
  simp only [hkey, Option.bind_eq_bind, Option.bind_some, after?, if_true, hend]

theorem lines_item {path : List String} {ts rest rest' : List Char} (h : SpellsPath path ts)
    (hl : path.length < nestingBound) {b : List Char} (hb : Blanks b)
    (hend : endOfLine rest = some rest')
    (fuel : Nat) (header : List String) (root : Entries) :
    lines (fuel + 1) header root (b ++ '[' :: '[' :: (ts ++ ']' :: ']' :: rest)) =
      openArrayTable path root >>= fun root => lines fuel path root rest' := by
  have hkey : readKey (ts ++ ']' :: ']' :: rest) = some (path, ']' :: ']' :: rest) :=
    readKey_of_spells h hl (keyStops_cons (by decide) _) (sharp_cons (by decide) _) (by simp)
  rw [lines, skipBlanks_blanks hb (sharp_cons (by decide) _)]
  simp only [hkey, Option.bind_eq_bind, Option.bind_some, after?, if_true, hend]

theorem lines_pair {k : String} {d : Datum} {b ks b' c ts rest rest' : List Char} (hb : Blanks b)
    (hk : SpellsKey k ks) (hb' : Blanks b') (hc : Blanks c) (hv : Spells 0 d ts) (hs : Stops rest)
    (hend : endOfLine rest = some rest') (fuel : Nat) (header : List String) (root : Entries) :
    lines (fuel + 1) header root (b ++ (ks ++ (b' ++ '=' :: (c ++ (ts ++ rest))))) =
      addValue header [k] d root >>= fun root => lines fuel header root rest' := by
  have hkey := readKey_pair blanks_nil hk hb' (c ++ (ts ++ rest))
  rw [List.nil_append] at hkey
  have hval : value (2 * (c ++ (ts ++ rest)).length + 2) 0 (ts ++ rest) = some (d, rest) :=
    value_of_spells hv _ rest (by simp only [List.length_append]; omega) hs
  have hskip : skipBlanks (c ++ (ts ++ rest)) = ts ++ rest :=
    skipBlanks_blanks hc (hv.solid rest).sharp
  have hsharp := hk.sharp (b' ++ '=' :: (c ++ (ts ++ rest)))
  obtain ⟨x, xs, rfl, hx⟩ := hk.head
  rw [lines, skipBlanks_blanks hb hsharp]
  rw [List.cons_append] at hkey hsharp ⊢
  have hne : ∀ y, y ∈ ['[', '#', '\n', '\r'] → x ≠ y := by
    rintro y hy rfl
    simp only [List.mem_cons, List.not_mem_nil, or_false] at hy
    rcases hy with rfl | rfl | rfl | rfl <;> simp [isBareKeyChar] at hx
  have hnone : ∀ xs, Sharp (x :: xs) → endOfLine (x :: xs) = none := by
    intro xs hsh
    have hcomment : skipComment (x :: xs) = x :: xs := by
      rw [skipComment]
      exact fun _ h => absurd (List.cons.inj h).1 (hne _ (by simp))
    rw [endOfLine, skipBlanks_sharp hsh, hcomment]
    simp only
    rw [lineEnd?]
    · exact fun _ h => absurd (List.cons.inj h).1 (hne _ (by simp))
    · exact fun _ h => absurd (List.cons.inj h).1 (hne _ (by simp))
  have hbracket : x ≠ '[' := hne _ (by simp)
  split <;> rename_i heq
  · cases heq
  · exact absurd (List.cons.inj heq).1 hbracket
  · exact absurd (List.cons.inj heq).1 hbracket
  · obtain ⟨rfl, rfl⟩ := List.cons.inj heq
    simp only [hnone _ hsharp, hkey, Option.bind_eq_bind, Option.bind_some, after?, if_true, hskip,
      hval, hend]

/-- How one line is read: what is after its end is read after what it does. -/
theorem lines_line {l : Line} {b t rest rest' : List Char} (hb : Blanks b) (h : SpellsLine l t)
    (hs : Stops rest) (hend : endOfLine rest = some rest') {fuel : Nat} {ls : List Line}
    (hrest : ∀ header root, lines fuel header root rest' = performAll ls header root)
    (header : List String) (root : Entries) :
    lines (fuel + 1) header root (b ++ (t ++ rest)) = performAll (l :: ls) header root := by
  cases h with
  | pair hk hb' hc hv =>
    have hline := lines_pair hb hk hb' hc hv hs hend fuel header root
    simpa [performAll, hrest] using hline
  | table hl hp =>
    have hline := lines_header hp hl hb hend fuel header root
    simpa [performAll, hrest] using hline
  | item hl hp =>
    have hline := lines_item hp hl hb hend fuel header root
    simpa [performAll, hrest] using hline

theorem SpellsLine.length_pos {l : Line} {t : List Char} (h : SpellsLine l t) : 0 < t.length := by
  cases h <;> simp

theorem skipBlanks_twice (cs : List Char) : skipBlanks (skipBlanks cs) = skipBlanks cs := by
  induction cs with
  | nil => rfl
  | cons c cs ih =>
    rw [skipBlanks]
    split_ifs with hc
    · exact ih
    · rw [skipBlanks, if_neg hc]

/-- A line that says nothing is passed over. -/
theorem lines_empty {ts rest : List Char} (hend : endOfLine ts = some rest)
    (hhead : ∀ c ∈ (skipBlanks ts).head?, c ≠ '[') (fuel : Nat) (header : List String)
    (root : Entries) : lines (fuel + 1) header root ts = lines fuel header root rest := by
  have hend' : endOfLine (skipBlanks ts) = some rest := by
    rw [endOfLine, skipBlanks_twice, ← endOfLine, hend]
  rw [lines]
  generalize skipBlanks ts = us at hend' hhead
  cases us with
  | nil =>
    obtain rfl : [] = rest := Option.some.inj hend'
    exact (lines_nil fuel header root).symm
  | cons c cs =>
    have hc : c ≠ '[' := hhead c rfl
    split <;> rename_i heq
    · cases heq
    · exact absurd (List.cons.inj heq).1 hc
    · exact absurd (List.cons.inj heq).1 hc
    · obtain ⟨rfl, rfl⟩ := List.cons.inj heq
      rw [hend']

theorem SpellsRest.head {ls : List Line} {ts : List Char} (h : SpellsRest ls ts) :
    ∀ c ∈ (skipBlanks ts).head?, c ≠ '[' := by
  have comment : ∀ {c : List Char} {cs}, Comment c → (∀ x ∈ cs.head?, x ≠ '[') →
      ∀ x ∈ (c ++ cs).head?, x ≠ '[' := by
    intro c cs hc hs x hx
    cases hc with
    | none => exact hs x hx
    | text _ =>
      obtain rfl : '#' = x := by simpa using hx
      decide
  cases h with
  | last hb hc =>
    have hskip := skipBlanks_comment hb hc (show Sharp [] by simp [Sharp])
    have := comment hc (show ∀ x ∈ ([] : List Char).head?, x ≠ '[' by simp)
    rw [← hskip] at this
    simpa using this
  | next hb hc he _ =>
    rw [List.append_assoc, List.append_assoc, skipBlanks_comment hb hc (he.sharp _)]
    refine comment hc ?_
    cases he <;> simp

mutual

/-- The lines of a text are performed in order. -/
theorem lines_of_spells {ls : List Line} {ts : List Char} (h : SpellsLines ls ts) (fuel : Nat)
    (hf : ts.length ≤ fuel) (header : List String) (root : Entries) :
    lines fuel header root ts = performAll ls header root := by
  match h with
  | .empty hr =>
    obtain ⟨rest, hend, hlen, hperf⟩ := rest_of_spells hr
    rcases hlen with rfl | hlen
    · obtain rfl : [] = rest := Option.some.inj hend
      exact hperf fuel header root (by simp)
    · obtain ⟨fuel, rfl⟩ : ∃ n, fuel = n + 1 := ⟨fuel - 1, by omega⟩
      rw [lines_empty hend hr.head]
      exact hperf fuel header root (by omega)
  | @SpellsLines.line b _ t _ ts hb hl hr =>
    have hpos := hl.length_pos
    simp only [List.length_append] at hf
    obtain ⟨fuel, rfl⟩ : ∃ n, fuel = n + 1 := ⟨fuel - 1, by omega⟩
    obtain ⟨rest, hend, hlen, hperf⟩ := rest_of_spells hr
    have hle : rest.length ≤ fuel := by
      rcases hlen with rfl | hlen
      · obtain rfl : [] = rest := Option.some.inj hend
        simp
      · omega
    rw [List.append_assoc]
    exact lines_line hb hl hr.stops hend (fun header root => hperf fuel header root hle) header root

/-- After the end of a line the others are performed. -/
theorem rest_of_spells {ls : List Line} {ts : List Char} (h : SpellsRest ls ts) :
    ∃ rest, endOfLine ts = some rest ∧ (ts = [] ∨ rest.length < ts.length) ∧
      ∀ fuel header root, rest.length ≤ fuel →
        lines fuel header root rest = performAll ls header root := by
  match h with
  | .last (b := b) (c := c) hb hc =>
    refine ⟨[], endOfLine_last hb hc, ?_, fun fuel header root _ => lines_nil fuel header root⟩
    cases b <;> cases c <;> simp
  | @SpellsRest.next _ _ _ _ ts hb hc he hl =>
    have hpos := he.length_pos
    refine ⟨ts, ?_, .inr ?_, fun fuel header root hf => lines_of_spells hl fuel hf header root⟩
    · simpa only [List.append_assoc] using endOfLine_next hb hc he ts
    · simp only [List.length_append]
      omega

end

/-- A byte order mark may stand before a document. -/
inductive SpellsDocument (ls : List Line) : List Char → Prop
  | plain {ts} : SpellsLines ls ts → SpellsDocument ls ts
  | marked {ts} : SpellsLines ls ts → SpellsDocument ls ('\ufeff' :: ts)

theorem SpellsLine.head_ne {l : Line} {t : List Char} (h : SpellsLine l t) (rest cs : List Char) :
    t ++ rest ≠ '\ufeff' :: cs := by
  intro heq
  cases h with
  | pair hk _ _ _ =>
    obtain ⟨c, ks, rfl, hc⟩ := hk.head
    rw [(List.cons.inj heq).1] at hc
    simp [isBareKeyChar] at hc
  | _ => exact absurd (List.cons.inj heq).1 (by decide)

theorem SpellsLines.head_ne {ls : List Line} {ts : List Char} (h : SpellsLines ls ts)
    (cs : List Char) : ts ≠ '\ufeff' :: cs := by
  intro heq
  cases h with
  | empty hr =>
    rw [heq] at hr
    exact hr.stops.ne (d := '\ufeff') (by decide) rfl
  | @line b l t ls ts hb hl _ =>
    cases b with
    | nil => exact hl.head_ne ts cs heq
    | cons c b =>
      have hc := hb c (by simp)
      rw [(List.cons.inj heq).1] at hc
      simp at hc

theorem read_of_spells {ls : List Line} {text : String} (h : SpellsDocument ls text.toList) :
    read text = (performAll ls [] []).map fun root => map (entriesToDatum root) := by
  have hread : ∀ ts, SpellsLines ls ts → lines (ts.length + 1) [] [] ts = performAll ls [] [] :=
    fun ts hts => lines_of_spells hts _ (by omega) [] []
  generalize hcs : text.toList = cs at h
  rw [read, hcs]
  cases h with
  | plain hts =>
    have hne := hts.head_ne
    simp only [hread _ hts]
    cases performAll ls [] [] <;> rfl
  | marked hts =>
    simp only [hread _ hts]
    cases performAll ls [] [] <;> rfl

mutual

theorem SpellsLines.isWhole {ls : List Line} {ts : List Char} (h : SpellsLines ls ts) {k : String}
    {d : Datum} (hin : .pair k d ∈ ls) : d.isWhole = true := by
  match h with
  | .empty hr => exact hr.isWhole hin
  | .line _ hl hr =>
    rcases List.mem_cons.mp hin with rfl | hin
    · cases hl with
      | pair _ _ _ hd => exact hd.isWhole
    · exact hr.isWhole hin

theorem SpellsRest.isWhole {ls : List Line} {ts : List Char} (h : SpellsRest ls ts) {k : String}
    {d : Datum} (hin : .pair k d ∈ ls) : d.isWhole = true := by
  match h with
  | .last _ _ => cases hin
  | .next _ _ _ hl => exact hl.isWhole hin

end

/-- The pairs of a document have data that can be passed over. -/
theorem SpellsDocument.isWhole {ls : List Line} {ts : List Char} (h : SpellsDocument ls ts)
    {k : String} {d : Datum} (hin : .pair k d ∈ ls) : d.isWhole = true := by
  cases h with
  | plain h => exact h.isWhole hin
  | marked h => exact h.isWhole hin

end WasmHost.Datum.Toml
