import NestedMatch.Json.Reader
import NestedMatch.Proofs.JsonText

/-! The reader reads every JSON text as the value it is a text of. Each part of the reader takes
exactly what its part of the grammar has written, whatever follows; only after a number there must
not be a character that could belong to it. -/

namespace NestedMatch.Json

theorem isBlank_iff {c : Char} : isBlank c = true ↔ c ∈ [' ', '\t', '\n', '\r'] := by
  simp [isBlank, or_assoc]

theorem skipBlanks_blank_append {ws : List Char} (h : Blank ws) (rest : List Char) :
    skipBlanks (ws ++ rest) = skipBlanks rest :=
  List.dropWhile_append_of_pos fun c hc => isBlank_iff.2 (h c hc)

theorem skipBlanks_append {ws : List Char} (h : Blank ws) {c : Char} (hc : isBlank c = false)
    (rest : List Char) : skipBlanks (ws ++ c :: rest) = c :: rest := by
  rw [skipBlanks_blank_append h]
  exact List.dropWhile_cons_of_neg (by simp [hc])

theorem hexDigit_of_hexDigit {n : Nat} {c : Char} (h : HexDigit n c) : hexDigit c = some n := by
  have lower : ∀ i : Fin 16, hexDigit "0123456789abcdef".toList[i] = some i.1 := by decide
  have upper : ∀ i : Fin 16, hexDigit "0123456789ABCDEF".toList[i] = some i.1 := by decide
  rcases h with h | h
  · obtain ⟨hn, rfl⟩ := List.getElem?_eq_some_iff.1 h
    exact lower ⟨n, hn⟩
  · obtain ⟨hn, rfl⟩ := List.getElem?_eq_some_iff.1 h
    exact upper ⟨n, hn⟩

theorem codeUnit_append {u : Nat} {cs : List Char} (h : CodeUnit u cs) (rest : List Char) :
    codeUnit (cs ++ rest) = some (u, rest) := by
  obtain ⟨ha, hb, hc, hd⟩ := h
  have hu : ((u / 0x1000 * 16 + u / 0x100 % 0x10) * 16 + u / 0x10 % 0x10) * 16 + u % 0x10 = u := by
    omega
  simp only [List.cons_append, List.nil_append, codeUnit, hexDigit_of_hexDigit ha,
    hexDigit_of_hexDigit hb, hexDigit_of_hexDigit hc, hexDigit_of_hexDigit hd, Option.bind_eq_bind,
    Option.bind_some, hu, Option.pure_def]

theorem not_surrogate (c : Char) :
    isHighSurrogate c.toNat = false ∧ isLowSurrogate c.toNat = false := by
  have hc : c.toNat < 0xD800 ∨ 0xDFFF < c.toNat ∧ c.toNat < 0x110000 := c.valid
  simp only [isHighSurrogate, isLowSurrogate, Bool.and_eq_false_iff, decide_eq_false_iff_not]
  omega

theorem numberedEscape_unit {c : Char} {cs : List Char} (h : CodeUnit c.toNat cs)
    (rest : List Char) : numberedEscape (cs ++ rest) = some (c, rest) := by
  obtain ⟨hhigh, hlow⟩ := not_surrogate c
  simp only [numberedEscape, codeUnit_append h, hhigh, hlow, Bool.false_eq_true, if_false,
    Char.ofNat_toNat]

theorem numberedEscape_pair {c : Char} {high low : List Char} (hc : 0x10000 ≤ c.toNat)
    (hhigh : CodeUnit (0xD800 + (c.toNat - 0x10000) / 0x400) high)
    (hlow : CodeUnit (0xDC00 + (c.toNat - 0x10000) % 0x400) low) (rest : List Char) :
    numberedEscape (high ++ '\\' :: 'u' :: (low ++ rest)) = some (c, rest) := by
  have hvalid : c.toNat < 0xD800 ∨ 0xDFFF < c.toNat ∧ c.toNat < 0x110000 := c.valid
  generalize hk : c.toNat - 0x10000 = k at hhigh hlow
  have hishigh : isHighSurrogate (0xD800 + k / 0x400) = true := by
    simp only [isHighSurrogate, Bool.and_eq_true, decide_eq_true_eq]
    omega
  have hislow : isLowSurrogate (0xDC00 + k % 0x400) = true := by
    simp only [isLowSurrogate, Bool.and_eq_true, decide_eq_true_eq]
    omega
  have hsum : 0x10000 + (0xD800 + k / 0x400 - 0xD800) * 0x400 + (0xDC00 + k % 0x400 - 0xDC00) =
      c.toNat := by
    omega
  simp only [numberedEscape, lowSurrogate, codeUnit_append hhigh, codeUnit_append hlow, hishigh,
    if_true, Option.filter_some, hislow, Option.map_some, hsum, Char.ofNat_toNat]

theorem character_append {c : Char} {cs : List Char} (h : Spelling c cs) (rest : List Char) :
    character (cs ++ rest) = some (c, rest) := by
  cases h with
  | raw hc hquote hslash =>
    have hplain : ¬ (c = '\\' ∨ c = '"' ∨ c.toNat < 0x20) := by
      rintro (h | h | h)
      · exact hslash h
      · exact hquote h
      · omega
    rw [List.singleton_append, character, if_neg hplain]
    · exact fun _ h _ => hslash h
    · exact fun _ _ h _ => hslash h
  | short hletter =>
    simp only [shortEscapes, List.mem_cons, List.not_mem_nil, or_false, Prod.mk.injEq] at hletter
    rcases hletter with ⟨rfl, rfl⟩ | ⟨rfl, rfl⟩ | ⟨rfl, rfl⟩ | ⟨rfl, rfl⟩ | ⟨rfl, rfl⟩ |
      ⟨rfl, rfl⟩ | ⟨rfl, rfl⟩ | ⟨rfl, rfl⟩ <;> rfl
  | unit hcs => exact numberedEscape_unit hcs rest
  | pair hc hhigh hlow =>
    simp only [List.cons_append, List.append_assoc]
    exact numberedEscape_pair hc hhigh hlow rest

/-- No spelling begins with the quote that ends the string. -/
theorem Spelling.exists_cons {c : Char} {cs : List Char} (h : Spelling c cs) :
    ∃ first rest, cs = first :: rest ∧ first ≠ '"' := by
  cases h with
  | raw _ hquote _ => exact ⟨_, _, rfl, hquote⟩
  | _ => exact ⟨_, _, rfl, by decide⟩

theorem characters_of_character {n : Nat} {first c : Char} {cs rest : List Char}
    (hfirst : first ≠ '"') (h : character (first :: cs) = some (c, rest)) :
    characters (n + 1) (first :: cs) =
      (characters n rest).map fun (text, rest) => (c :: text, rest) := by
  rw [characters, h]
  intro rest he
  exact hfirst (List.cons.inj he).1

theorem characters_append {text cs : List Char} (h : Quoted text cs) {n : Nat} (hn : cs.length ≤ n)
    (rest : List Char) : characters n (cs ++ rest) = some (text, rest) := by
  induction h generalizing n with
  | close =>
    obtain ⟨n, rfl⟩ : ∃ m, n = m + 1 := ⟨n - 1, by simp at hn; omega⟩
    rfl
  | @next c cs text inner hc _ ih =>
    obtain ⟨first, others, rfl, hfirst⟩ := hc.exists_cons
    simp only [List.cons_append, List.length_cons, List.length_append] at hn
    obtain ⟨n, rfl⟩ : ∃ m, n = m + 1 := ⟨n - 1, by omega⟩
    have hread : character (first :: (others ++ (inner ++ rest))) = some (c, inner ++ rest) :=
      character_append hc (inner ++ rest)
    rw [List.append_assoc, List.cons_append, characters_of_character hfirst hread,
      ih (by omega)]
    rfl

/-- The next character, if there is one, is none of these. -/
def Clear (p : Char → Bool) (rest : List Char) : Prop := ∀ c ∈ rest.head?, p c = false

/-- The characters that could continue a number. -/
def isNumeric (c : Char) : Bool := isDigit c || c = '.' || c = 'e' || c = 'E'

theorem clear_cons {p : Char → Bool} {c : Char} {rest : List Char} :
    Clear p (c :: rest) ↔ p c = false := by
  simp [Clear]

theorem isDigit_iff {c : Char} : isDigit c = true ↔ '0' ≤ c ∧ c ≤ '9' := by
  simp [isDigit]

theorem Digits.exists_cons {ds : List Char} (h : Digits ds) :
    ∃ c rest, ds = c :: rest ∧ isDigit c = true := by
  cases ds with
  | nil => exact absurd rfl h.1
  | cons c rest => exact ⟨c, rest, rfl, isDigit_iff.2 (h.2 c List.mem_cons_self)⟩

theorem digits_append {ds : List Char} (h : Digits ds) {rest : List Char}
    (hrest : Clear isDigit rest) : digits (ds ++ rest) = some (ds, rest) := by
  have hall : ∀ c ∈ ds, isDigit c = true := fun c hc => isDigit_iff.2 (h.2 c hc)
  rw [digits, takeWhile_run hall hrest, dropWhile_run hall hrest, if_neg h.1]

theorem whole_append {ds : List Char} (h : Whole ds) {rest : List Char}
    (hrest : Clear isDigit rest) : whole (ds ++ rest) = some (ds, rest) := by
  cases h with
  | zero => rfl
  | @digits c ds hds hc =>
    have hwhole : whole (c :: ds ++ rest) = digits (c :: ds ++ rest) := by
      rw [List.cons_append, whole]
      rintro others he
      exact hc (List.cons.inj he).1
    rw [hwhole, digits_append hds hrest]

theorem fraction_append {fs : List Char} (h : Fraction fs) {rest : List Char}
    (hrest : Clear (fun c => isDigit c || c = '.') rest) :
    fraction (fs ++ rest) = some (fs, rest) := by
  cases h with
  | none =>
    rw [List.nil_append, fraction]
    rintro others rfl
    simp [clear_cons] at hrest
  | digits hds =>
    have hclear : Clear isDigit rest := fun c hc => (Bool.or_eq_false_iff.1 (hrest c hc)).1
    rw [List.cons_append, fraction, digits_append hds hclear]
    rfl

theorem power_append {sign ds : List Char} (hsign : sign ∈ [[], ['+'], ['-']]) (h : Digits ds)
    {rest : List Char} (hrest : Clear isDigit rest) :
    power (sign ++ (ds ++ rest)) = some (sign ++ ds, rest) := by
  simp only [List.mem_cons, List.not_mem_nil, or_false] at hsign
  rcases hsign with rfl | rfl | rfl
  · obtain ⟨c, others, rfl, hc⟩ := h.exists_cons
    rw [List.nil_append, power, digits_append h hrest, List.nil_append]
    · rintro others he
      rw [(List.cons.inj he).1] at hc
      exact absurd hc (by decide)
    · rintro others he
      rw [(List.cons.inj he).1] at hc
      exact absurd hc (by decide)
  · rw [List.singleton_append, power, digits_append h hrest]
    rfl
  · rw [List.singleton_append, power, digits_append h hrest]
    rfl

theorem exponent_append {es : List Char} (h : Exponent es) {rest : List Char}
    (hrest : Clear isNumeric rest) : exponent (es ++ rest) = some (es, rest) := by
  cases h with
  | none =>
    rw [List.nil_append, exponent]
    · rintro others rfl
      exact absurd (clear_cons.1 hrest) (by decide)
    · rintro others rfl
      exact absurd (clear_cons.1 hrest) (by decide)
  | @digits e sign ds he hsign hds =>
    have hclear : Clear isDigit rest := fun c hc => by
      have := hrest c hc
      simp only [isNumeric, Bool.or_eq_false_iff] at this
      exact this.1.1.1
    simp only [List.mem_cons, List.not_mem_nil, or_false] at he
    rcases he with rfl | rfl
    · rw [List.cons_append, List.append_assoc, exponent, power_append hsign hds hclear]
      rfl
    · rw [List.cons_append, List.append_assoc, exponent, power_append hsign hds hclear]
      rfl

theorem Whole.exists_cons {ds : List Char} (h : Whole ds) :
    ∃ c rest, ds = c :: rest ∧ isDigit c = true := by
  cases h with
  | zero => exact ⟨_, _, rfl, by decide⟩
  | digits hds _ => exact hds.exists_cons

theorem Numeral.exists_cons {ds : List Char} (h : Numeral ds) :
    ∃ c rest, ds = c :: rest ∧ (c = '-' ∨ isDigit c = true) := by
  obtain ⟨hsign, hwhole, -, -⟩ := h
  obtain ⟨c, rest, rfl, hc⟩ := hwhole.exists_cons
  simp only [List.mem_cons, List.not_mem_nil, or_false] at hsign
  rcases hsign with rfl | rfl
  · exact ⟨_, _, rfl, .inr hc⟩
  · exact ⟨_, _, rfl, .inl rfl⟩

theorem unsigned_append {ds fs es : List Char} (hds : Whole ds) (hfs : Fraction fs)
    (hes : Exponent es) {rest : List Char} (hrest : Clear isNumeric rest) :
    unsigned (ds ++ (fs ++ (es ++ rest))) = some (ds ++ (fs ++ es), rest) := by
  have hexponent : Clear (fun c => isDigit c || c = '.') (es ++ rest) := by
    cases hes with
    | none =>
      intro c hc
      have := hrest c hc
      simp only [isNumeric, Bool.or_eq_false_iff] at this
      exact Bool.or_eq_false_iff.2 this.1.1
    | digits he _ _ =>
      simp only [List.mem_cons, List.not_mem_nil, or_false] at he
      rcases he with rfl | rfl <;> exact clear_cons.2 (by decide)
  have hfraction : Clear isDigit (fs ++ (es ++ rest)) := by
    cases hfs with
    | none => exact fun c hc => (Bool.or_eq_false_iff.1 (hexponent c hc)).1
    | digits _ => exact clear_cons.2 (by decide)
  simp only [unsigned, whole_append hds hfraction, fraction_append hfs hexponent,
    exponent_append hes hrest, Option.bind_eq_bind, Option.bind_some, Option.pure_def,
    List.append_assoc]

theorem numeral_append {ds : List Char} (h : Numeral ds) {rest : List Char}
    (hrest : Clear isNumeric rest) : numeral (ds ++ rest) = some (ds, rest) := by
  obtain ⟨hsign, hds, hfs, hes⟩ := h
  have hread := unsigned_append hds hfs hes hrest
  simp only [List.append_assoc]
  simp only [List.mem_cons, List.not_mem_nil, or_false] at hsign
  rcases hsign with rfl | rfl
  · obtain ⟨c, others, rfl, hc⟩ := hds.exists_cons
    rw [List.nil_append, List.nil_append, numeral, hread]
    rintro others he
    rw [(List.cons.inj he).1] at hc
    exact absurd hc (by decide)
  · rw [List.singleton_append, List.singleton_append, numeral, hread]
    rfl

/-- A value that is neither a string nor opened by a bracket or a brace. -/
theorem value_plain {n : Nat} {c : Char} {cs : List Char} (h : c ∉ ['"', '[', '\x7b']) :
    value (n + 1) (c :: cs) = plain (c :: cs) := by
  simp only [List.mem_cons, List.not_mem_nil, or_false, not_or] at h
  rw [value]
  · exact fun _ he => h.1 (List.cons.inj he).1
  · exact fun _ he => h.2.1 (List.cons.inj he).1
  · exact fun _ he => h.2.2 (List.cons.inj he).1

theorem value_word {n : Nat} {v : Json} {c : Char} {cs rest : List Char}
    (hc : c ∉ ['"', '[', '\x7b']) (h : word (c :: cs) = some (v, rest)) :
    value (n + 1) (c :: cs) = some (v, rest) := by
  rw [value_plain hc, plain, h]
  rfl

theorem word_of_numeral {c : Char} (h : c = '-' ∨ isDigit c = true) (cs : List Char) :
    word (c :: cs) = none := by
  have hne : ∀ w ∈ ['n', 't', 'f'], w ≠ c := by
    rintro w hw rfl
    simp only [List.mem_cons, List.not_mem_nil, or_false] at hw
    rcases hw with rfl | rfl | rfl <;> exact absurd h (by decide)
  have hnull : dropWord "null".toList (c :: cs) = none := if_neg (hne 'n' (by decide))
  have htrue : dropWord "true".toList (c :: cs) = none := if_neg (hne 't' (by decide))
  have hfalse : dropWord "false".toList (c :: cs) = none := if_neg (hne 'f' (by decide))
  rw [word, hnull, htrue, hfalse]
  rfl

theorem value_numeral {n : Nat} {ds : List Char} (h : Numeral ds) {rest : List Char}
    (hrest : Clear isNumeric rest) :
    value (n + 1) (ds ++ rest) = some (.number (Utf8.encode ds), rest) := by
  have hread := numeral_append h hrest
  obtain ⟨c, others, rfl, hc⟩ := h.exists_cons
  have hplain : c ∉ ['"', '[', '\x7b'] := by
    intro hmem
    simp only [List.mem_cons, List.not_mem_nil, or_false] at hmem
    rcases hmem with rfl | rfl | rfl <;> exact absurd hc (by decide)
  rw [List.cons_append] at hread ⊢
  rw [value_plain hplain, plain, word_of_numeral hc, hread]
  rfl

/-- What a value of the grammar begins with. -/
theorem Written.exists_cons {v : Json} {cs : List Char} (h : Written v cs) :
    ∃ c rest, cs = c :: rest ∧ isBlank c = false ∧ c ≠ ']' := by
  cases h with
  | number h =>
    obtain ⟨c, rest, rfl, hc⟩ := h.exists_cons
    refine ⟨c, rest, rfl, ?_, ?_⟩
    · rw [Bool.eq_false_iff, Ne, isBlank_iff]
      intro hmem
      simp only [List.mem_cons, List.not_mem_nil, or_false] at hmem
      rcases hmem with rfl | rfl | rfl | rfl <;> exact absurd hc (by decide)
    · rintro rfl
      exact absurd hc (by decide)
  | _ => exact ⟨_, _, rfl, by decide, by decide⟩

theorem Elements.exists_cons {vs : List Json} {cs : List Char} (h : Elements vs cs) :
    ∃ c rest, cs = c :: rest ∧ isBlank c = false ∧ c ≠ ']' := by
  cases h with
  | last hv _ | more hv _ _ _ =>
    obtain ⟨c, rest, rfl, hc⟩ := hv.exists_cons
    exact ⟨c, _, rfl, hc⟩

theorem Member.exists_cons {m : Bytes × Json} {cs : List Char} (h : Member m cs) :
    ∃ rest, cs = '"' :: rest := by
  cases h
  exact ⟨_, rfl⟩

theorem Members.exists_cons {ms : List (Bytes × Json)} {cs : List Char} (h : Members ms cs) :
    ∃ rest, cs = '"' :: rest := by
  cases h with
  | last hm _ | more hm _ _ _ =>
    obtain ⟨rest, rfl⟩ := hm.exists_cons
    exact ⟨_, rfl⟩

theorem clear_blank_append {ws rest : List Char} (h : Blank ws) (hrest : Clear isNumeric rest) :
    Clear isNumeric (ws ++ rest) := by
  cases ws with
  | nil => exact hrest
  | cons c ws =>
    have hc := h c List.mem_cons_self
    simp only [List.mem_cons, List.not_mem_nil, or_false] at hc
    rw [List.cons_append, clear_cons]
    rcases hc with rfl | rfl | rfl | rfl <;> decide

/-- The reader reads every text of up to this many characters that the grammar writes. -/
structure Reads (n : Nat) : Prop where
  value : ∀ {v cs}, Written v cs → cs.length ≤ n → ∀ {rest}, Clear isNumeric rest →
    value n (cs ++ rest) = some (v, rest)
  elements : ∀ {vs cs}, Elements vs cs → cs.length ≤ n → ∀ rest,
    elements n (cs ++ rest) = some (vs, rest)
  members : ∀ {ms cs}, Members ms cs → cs.length ≤ n → ∀ before rest,
    members n before (cs ++ rest) =
      some (ms.foldl (fun d m => Dict.insert m.1 m.2 d) before, rest)

theorem value_array {n : Nat} {c : Char} {inside rest : List Char}
    (h : skipBlanks inside = c :: rest) (hc : c ≠ ']') :
    value (n + 1) ('[' :: inside) =
      (elements n (c :: rest)).map fun (vs, rest) => (.array vs, rest) := by
  rw [value, h]
  split
  · rename_i he
    exact absurd (List.cons.inj he).1 hc
  · rfl

theorem value_object {n : Nat} {inside rest : List Char} (h : skipBlanks inside = '"' :: rest) :
    value (n + 1) ('\x7b' :: inside) =
      (members n [] ('"' :: rest)).map fun (ms, rest) => (.object ms, rest) := by
  rw [value, h]
  rfl

variable {n : Nat}

theorem Reads.value_succ (h : Reads n) {v : Json} {cs : List Char} (hv : Written v cs)
    (hn : cs.length ≤ n + 1) {rest : List Char} (hrest : Clear isNumeric rest) :
    Json.value (n + 1) (cs ++ rest) = some (v, rest) := by
  cases hv with
  | null => exact value_word (c := 'n') (by decide) rfl
  | yes => exact value_word (c := 't') (by decide) rfl
  | no => exact value_word (c := 'f') (by decide) rfl
  | number hds => exact value_numeral hds hrest
  | @string text cs htext =>
    have hread := characters_append htext (Nat.le_of_succ_le_succ hn) rest
    rw [List.cons_append, Json.value, hread]
    rfl
  | @emptyArray ws hws =>
    have hskip : skipBlanks (ws ++ ']' :: rest) = ']' :: rest :=
      skipBlanks_append hws (by decide) _
    simp only [List.cons_append, List.append_assoc, List.nil_append]
    rw [Json.value, hskip]
    rfl
  | @array ws cs vs hws hvs =>
    obtain ⟨c, others, rfl, hblank, hc⟩ := hvs.exists_cons
    have hskip : skipBlanks (ws ++ (c :: others ++ rest)) = c :: (others ++ rest) :=
      skipBlanks_append hws hblank _
    have hread := h.elements hvs (by simp at hn ⊢; omega) rest
    rw [List.cons_append, List.append_assoc, value_array hskip hc, ← List.cons_append, hread]
    rfl
  | @emptyObject ws hws =>
    have hskip : skipBlanks (ws ++ '\x7d' :: rest) = '\x7d' :: rest :=
      skipBlanks_append hws (by decide) _
    simp only [List.cons_append, List.append_assoc, List.nil_append]
    rw [Json.value, hskip]
    rfl
  | @object ws cs ms d hws hms hperm hsorted =>
    obtain ⟨others, rfl⟩ := hms.exists_cons
    have hskip : skipBlanks (ws ++ ('"' :: others ++ rest)) = '"' :: (others ++ rest) :=
      skipBlanks_append hws (by decide) _
    have hread := h.members hms (by simp at hn ⊢; omega) [] rest
    have hd : ms.foldl (fun d m => Dict.insert m.1 m.2 d) [] = d :=
      Dict.ofList_eq_of_perm hperm hsorted
    rw [List.cons_append, List.append_assoc, value_object hskip, ← List.cons_append, hread, hd]
    rfl

theorem Reads.elements_succ (h : Reads n) {vs : List Json} {cs : List Char} (hvs : Elements vs cs)
    (hn : cs.length ≤ n + 1) (rest : List Char) :
    Json.elements (n + 1) (cs ++ rest) = some (vs, rest) := by
  cases hvs with
  | @last v cs ws hv hws =>
    have hskip : skipBlanks (ws ++ ']' :: rest) = ']' :: rest :=
      skipBlanks_append hws (by decide) _
    have hclear : Clear isNumeric (ws ++ ']' :: rest) :=
      clear_blank_append hws (clear_cons.2 (by decide))
    have hread := h.value hv (by simp at hn; omega) hclear
    simp only [List.append_assoc, List.cons_append, List.nil_append]
    rw [Json.elements, hread]
    simp only [hskip]
  | @more v cs ws ws' others vs hv hws hws' hvs =>
    obtain ⟨c, others, rfl, hblank, -⟩ := hvs.exists_cons
    have hskip : skipBlanks (ws ++ ',' :: (ws' ++ (c :: others ++ rest))) =
        ',' :: (ws' ++ (c :: others ++ rest)) :=
      skipBlanks_append hws (by decide) _
    have hskip' : skipBlanks (ws' ++ (c :: others ++ rest)) = c :: others ++ rest :=
      skipBlanks_append hws' hblank _
    have hclear : Clear isNumeric (ws ++ ',' :: (ws' ++ (c :: others ++ rest))) :=
      clear_blank_append hws (clear_cons.2 (by decide))
    have hread := h.value hv (by simp at hn; omega) hclear
    have hothers := h.elements hvs (by simp at hn ⊢; omega) rest
    simp only [List.append_assoc, List.cons_append] at hskip hskip' hread hothers ⊢
    rw [Json.elements, hread]
    simp only [hskip, hskip', hothers]
    rfl

/-- A member is read up to what follows its value. -/
theorem Reads.member (h : Reads n) {m : Bytes × Json} {cs : List Char} (hm : Member m cs)
    (hn : cs.length ≤ n + 1) {rest : List Char} (hrest : Clear isNumeric rest)
    (before : List (Bytes × Json)) :
    Json.members (n + 1) before (cs ++ rest) =
      match skipBlanks rest with
      | '\x7d' :: rest => some (Dict.insert m.1 m.2 before, rest)
      | ',' :: rest => Json.members n (Dict.insert m.1 m.2 before) (skipBlanks rest)
      | _ => none := by
  cases hm with
  | @pair name quoted ws ws' cs v hname hws hws' hv =>
    simp only [List.length_cons, List.length_append] at hn
    have hskip : skipBlanks (ws ++ ':' :: (ws' ++ (cs ++ rest))) = ':' :: (ws' ++ (cs ++ rest)) :=
      skipBlanks_append hws (by decide) _
    have hskip' : skipBlanks (ws' ++ (cs ++ rest)) = cs ++ rest := by
      obtain ⟨c, others, rfl, hblank, -⟩ := hv.exists_cons
      exact skipBlanks_append hws' hblank _
    have hname := characters_append hname (show quoted.length ≤ n by omega)
      (ws ++ ':' :: (ws' ++ (cs ++ rest)))
    have hread := h.value hv (by omega) hrest
    have hopen := Json.members.eq_def (n + 1) before
      ('"' :: (quoted ++ (ws ++ ':' :: (ws' ++ (cs ++ rest)))))
    simp only [hname, hskip, hskip', hread] at hopen
    simp only [List.cons_append, List.append_assoc]
    exact hopen

theorem Reads.members_succ (h : Reads n) {ms : List (Bytes × Json)} {cs : List Char}
    (hms : Members ms cs) (hn : cs.length ≤ n + 1) (before : List (Bytes × Json))
    (rest : List Char) :
    Json.members (n + 1) before (cs ++ rest) =
      some (ms.foldl (fun d m => Dict.insert m.1 m.2 d) before, rest) := by
  cases hms with
  | @last m cs ws hm hws =>
    have hskip : skipBlanks (ws ++ '\x7d' :: rest) = '\x7d' :: rest :=
      skipBlanks_append hws (by decide) _
    have hclear : Clear isNumeric (ws ++ '\x7d' :: rest) :=
      clear_blank_append hws (clear_cons.2 (by decide))
    have hread := h.member hm (by simp at hn; omega) hclear before
    simp only [List.append_assoc, List.cons_append, List.nil_append]
    rw [hread, hskip]
    rfl
  | @more m cs ws ws' others ms hm hws hws' hms =>
    obtain ⟨inside, rfl⟩ := hms.exists_cons
    have hskip : skipBlanks (ws ++ ',' :: (ws' ++ ('"' :: inside ++ rest))) =
        ',' :: (ws' ++ ('"' :: inside ++ rest)) :=
      skipBlanks_append hws (by decide) _
    have hskip' : skipBlanks (ws' ++ ('"' :: inside ++ rest)) = '"' :: inside ++ rest :=
      skipBlanks_append hws' (by decide) _
    have hclear : Clear isNumeric (ws ++ ',' :: (ws' ++ ('"' :: inside ++ rest))) :=
      clear_blank_append hws (clear_cons.2 (by decide))
    have hread := h.member hm (by simp at hn; omega) hclear before
    have hothers := h.members hms (by simp at hn ⊢; omega) (Dict.insert m.1 m.2 before) rest
    have hshape : cs ++ (ws ++ ',' :: (ws' ++ '"' :: inside)) ++ rest =
        cs ++ (ws ++ ',' :: (ws' ++ ('"' :: inside ++ rest))) := by
      simp only [List.append_assoc, List.cons_append]
    rw [hshape, hread, hskip]
    simp only [hskip', hothers, List.foldl_cons]

-- Each reader takes a character before it calls another, so the bound and the length of the text
-- that is left go down together.
theorem reads (n : Nat) : Reads n := by
  induction n with
  | zero =>
    constructor
    · intro v cs hv hn
      obtain ⟨c, rest, rfl, -⟩ := hv.exists_cons
      cases hn
    · intro vs cs hvs hn
      obtain ⟨c, rest, rfl, -⟩ := hvs.exists_cons
      cases hn
    · intro ms cs hms hn
      obtain ⟨rest, rfl⟩ := hms.exists_cons
      cases hn
  | succ n ih => exact ⟨ih.value_succ, ih.elements_succ, ih.members_succ⟩

/-- Every JSON text is read as the value it is a text of. -/
theorem ofText?_of_textOf {v : Json} {text : Bytes} (h : TextOf v text) :
    ofText? text = some v := by
  obtain ⟨ws, cs, ws', hws, hv, hws', rfl⟩ := h
  have hskip : skipBlanks (ws ++ (cs ++ ws')) = cs ++ ws' := by
    obtain ⟨c, rest, rfl, hblank, -⟩ := hv.exists_cons
    exact skipBlanks_append hws hblank _
  have hend : skipBlanks ws' = [] := by
    rw [← List.append_nil ws', skipBlanks_blank_append hws']
    rfl
  have hclear : Clear isNumeric ws' := by
    rw [← List.append_nil ws']
    exact clear_blank_append hws' nofun
  have hread := (reads ((ws ++ (cs ++ ws')).length + 1)).value hv (by simp; omega) hclear
  simp only [ofText?, Utf8.decode?_encode, Option.bind_eq_bind, Option.bind_some, hskip, hread,
    hend, if_true]

end NestedMatch.Json
