import NestedMatch.Json
import NestedMatch.Utf8

/-! The grammar of RFC 8259: which characters are a text of which JSON value. Members stand in any
order, with any blanks between the tokens, and every character of a string in any of its spellings.
Every text in UTF-8 has a string, so every value of such strings and of objects has a text. -/

namespace NestedMatch.Json

/-- Spaces, tabs, line feeds and carriage returns, any number of them. -/
def Blank (cs : List Char) : Prop := ∀ c ∈ cs, c ∈ [' ', '\t', '\n', '\r']

-- Over the characters listed: where characters are known to be finitely many, instance search
-- would go over all of them.
instance (cs : List Char) : Decidable (Blank cs) := List.decidableBAll _ cs

/-- The digit of a number below sixteen, in either case. -/
def HexDigit (n : Nat) (c : Char) : Prop :=
  "0123456789abcdef".toList[n]? = some c ∨ "0123456789ABCDEF".toList[n]? = some c

/-- Four digits that give a code unit. -/
inductive CodeUnit (u : Nat) : List Char → Prop
  | digits {a b c d : Char} : HexDigit (u / 0x1000) a → HexDigit (u / 0x100 % 0x10) b →
    HexDigit (u / 0x10 % 0x10) c → HexDigit (u % 0x10) d → CodeUnit u [a, b, c, d]

/-- The letters that may follow a backslash, each with the character they stand for. -/
def shortEscapes : List (Char × Char) :=
  [('"', '"'), ('\\', '\\'), ('/', '/'), ('b', '\x08'), ('f', '\x0c'), ('n', '\n'), ('r', '\r'),
    ('t', '\t')]

/-- The spellings of a character in a string: as it is, by a letter, by its number or, beyond
U+FFFF, by the numbers of a surrogate pair. -/
inductive Spelling (c : Char) : List Char → Prop
  | raw : 0x20 ≤ c.toNat → c ≠ '"' → c ≠ '\\' → Spelling c [c]
  | short {letter : Char} : (letter, c) ∈ shortEscapes → Spelling c ['\\', letter]
  | unit {cs : List Char} : CodeUnit c.toNat cs → Spelling c ('\\' :: 'u' :: cs)
  | pair {high low : List Char} : 0x10000 ≤ c.toNat →
    CodeUnit (0xD800 + (c.toNat - 0x10000) / 0x400) high →
    CodeUnit (0xDC00 + (c.toNat - 0x10000) % 0x400) low →
    Spelling c ('\\' :: 'u' :: (high ++ '\\' :: 'u' :: low))

/-- The inside of a string and the closing quote. -/
inductive Quoted : List Char → List Char → Prop
  | close : Quoted [] ['"']
  | next {c : Char} {cs text rest : List Char} : Spelling c cs → Quoted text rest →
    Quoted (c :: text) (cs ++ rest)

def Digits (ds : List Char) : Prop := ds ≠ [] ∧ ∀ c ∈ ds, '0' ≤ c ∧ c ≤ '9'

/-- No leading zero, unless zero is all there is. -/
inductive Whole : List Char → Prop
  | zero : Whole ['0']
  | digits {c : Char} {ds : List Char} : Digits (c :: ds) → c ≠ '0' → Whole (c :: ds)

inductive Fraction : List Char → Prop
  | none : Fraction []
  | digits {ds : List Char} : Digits ds → Fraction ('.' :: ds)

inductive Exponent : List Char → Prop
  | none : Exponent []
  | digits {e : Char} {sign ds : List Char} : e ∈ ['e', 'E'] → sign ∈ [[], ['+'], ['-']] →
    Digits ds → Exponent (e :: (sign ++ ds))

inductive Numeral : List Char → Prop
  | parts {sign whole fraction exponent : List Char} : sign ∈ [[], ['-']] → Whole whole →
    Fraction fraction → Exponent exponent → Numeral (sign ++ (whole ++ (fraction ++ exponent)))

mutual

/-- The characters are a text of the value, with no blanks around it. -/
inductive Written : Json → List Char → Prop
  | null : Written .null "null".toList
  | yes : Written (.boolean true) "true".toList
  | no : Written (.boolean false) "false".toList
  | number {ds : List Char} : Numeral ds → Written (.number (Utf8.encode ds)) ds
  | string {text cs : List Char} : Quoted text cs → Written (.string (Utf8.encode text)) ('"' :: cs)
  | emptyArray {ws : List Char} : Blank ws → Written (.array []) ('[' :: (ws ++ [']']))
  | array {ws cs : List Char} {vs : List Json} : Blank ws → Elements vs cs →
    Written (.array vs) ('[' :: (ws ++ cs))
  | emptyObject {ws : List Char} : Blank ws → Written (.object []) ('\x7b' :: (ws ++ ['\x7d']))
  /-- The members of the value are those of the text, put in order. -/
  | object {ws cs : List Char} {ms members : List (Bytes × Json)} : Blank ws → Members ms cs →
    ms.Perm members → Dict.Sorted members → Written (.object members) ('\x7b' :: (ws ++ cs))

/-- The elements of an array from the first one on, and the closing bracket. -/
inductive Elements : List Json → List Char → Prop
  | last {v : Json} {cs ws : List Char} : Written v cs → Blank ws →
    Elements [v] (cs ++ (ws ++ [']']))
  | more {v : Json} {cs ws ws' rest : List Char} {vs : List Json} : Written v cs → Blank ws →
    Blank ws' → Elements vs rest → Elements (v :: vs) (cs ++ (ws ++ ',' :: (ws' ++ rest)))

inductive Member : Bytes × Json → List Char → Prop
  | pair {name quoted ws ws' cs : List Char} {v : Json} : Quoted name quoted → Blank ws →
    Blank ws' → Written v cs →
    Member (Utf8.encode name, v) ('"' :: (quoted ++ (ws ++ ':' :: (ws' ++ cs))))

/-- The members of an object from the first one on, and the closing brace. -/
inductive Members : List (Bytes × Json) → List Char → Prop
  | last {m : Bytes × Json} {cs ws : List Char} : Member m cs → Blank ws →
    Members [m] (cs ++ (ws ++ ['\x7d']))
  | more {m : Bytes × Json} {cs ws ws' rest : List Char} {ms : List (Bytes × Json)} : Member m cs →
    Blank ws → Blank ws' → Members ms rest → Members (m :: ms) (cs ++ (ws ++ ',' :: (ws' ++ rest)))

end

/-- The bytes are a text of the value, with any blanks around it. -/
def TextOf (v : Json) (text : Bytes) : Prop :=
  ∃ ws cs ws', Blank ws ∧ Written v cs ∧ Blank ws' ∧ text = Utf8.encode (ws ++ (cs ++ ws'))

theorem blank_nil : Blank [] := nofun

theorem exists_hexDigit {n : Nat} (h : n < 0x10) : ∃ c, HexDigit n c :=
  ⟨_, .inl (List.getElem?_eq_getElem h)⟩

theorem exists_codeUnit {u : Nat} (h : u < 0x10000) : ∃ cs, CodeUnit u cs := by
  obtain ⟨a, ha⟩ := exists_hexDigit (n := u / 0x1000) (by omega)
  obtain ⟨b, hb⟩ := exists_hexDigit (n := u / 0x100 % 0x10) (by omega)
  obtain ⟨c, hc⟩ := exists_hexDigit (n := u / 0x10 % 0x10) (by omega)
  obtain ⟨d, hd⟩ := exists_hexDigit (n := u % 0x10) (by omega)
  exact ⟨_, .digits ha hb hc hd⟩

theorem exists_spelling (c : Char) : ∃ cs, Spelling c cs := by
  by_cases hshort : c = '"' ∨ c = '\\'
  · refine ⟨['\\', c], .short ?_⟩
    rcases hshort with rfl | rfl <;> decide +kernel
  · rw [not_or] at hshort
    by_cases hraw : 0x20 ≤ c.toNat
    · exact ⟨_, .raw hraw hshort.1 hshort.2⟩
    · obtain ⟨cs, hcs⟩ := exists_codeUnit (u := c.toNat) (by omega)
      exact ⟨_, .unit hcs⟩

/-- A text that needs no escapes. -/
theorem quoted_raw {text : List Char}
    (h : text.all (fun c => 0x20 ≤ c.toNat ∧ c ≠ '"' ∧ c ≠ '\\') = true) :
    Quoted text (text ++ ['"']) := by
  induction text with
  | nil => exact .close
  | cons c text ih =>
    obtain ⟨hc, hrest⟩ := Bool.and_eq_true_iff.1 h
    obtain ⟨hctl, hquote, hslash⟩ := of_decide_eq_true hc
    have hnext : Quoted (c :: text) ([c] ++ (text ++ ['"'])) :=
      .next (.raw hctl hquote hslash) (ih hrest)
    exact hnext

theorem exists_quoted (text : List Char) : ∃ cs, Quoted text cs := by
  induction text with
  | nil => exact ⟨_, .close⟩
  | cons c text ih =>
    obtain ⟨cs, hcs⟩ := exists_spelling c
    obtain ⟨rest, hrest⟩ := ih
    exact ⟨_, .next hcs hrest⟩

theorem exists_member (name : List Char) {v : Json} {cs : List Char} (h : Written v cs) :
    ∃ text, Member (Utf8.encode name, v) text := by
  obtain ⟨quoted, hquoted⟩ := exists_quoted name
  exact ⟨_, .pair hquoted blank_nil blank_nil h⟩

end NestedMatch.Json
