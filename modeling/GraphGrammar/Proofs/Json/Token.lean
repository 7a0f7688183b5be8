import Mathlib.Tactic.SplitIfs
import GraphGrammar.Json.Writer
import GraphGrammar.Proofs.Json.Numeral

/-!
# The tokens of written values

A written value is cut into the tokens of the value. Brackets, braces and the quote that ends a text
are tokens by themselves. A word and a number end where something follows that does not continue
them, which is so wherever a value is written.

## Main definitions

* `GraphGrammar.Json.tokens` — the tokens of a value.
* `GraphGrammar.Json.Token.EndsToken` — what follows continues neither a word nor a number.

## Main results

* `GraphGrammar.Json.Token.scanFrom_literal` — the token of a text, whatever its characters.
* `GraphGrammar.Json.scanFrom_prettyChars` — the tokens of a value on many lines.
-/

namespace GraphGrammar.Json

namespace Piece

/-- A code unit that is no half of a pair stands for its character. -/
theorem join?_unit {u : Nat} (hleading : isLeading u = false) (htrailing : isTrailing u = false)
    (rest : List Piece) : join? (unit u :: rest) = (join? rest).map (Char.ofNat u :: ·) := by
  match rest with
  | [] => simp [join?, hleading, htrailing]
  | plain c :: rest => simp [join?, hleading, htrailing]
  | unit v :: rest => simp [join?, hleading, htrailing]

end Piece

namespace Token

/-! ### Words, numbers and space -/

/-- What follows continues neither a word nor a number. -/
def EndsToken (rest : List Char) : Prop :=
  ∀ c ∈ rest.head?, c.isAlpha = false ∧ isNumberCharacter c = false

theorem endsToken_nil : EndsToken [] := nofun

theorem endsToken_cons {c : Char} (rest : List Char)
    (h : c.isAlpha = false ∧ isNumberCharacter c = false) : EndsToken (c :: rest) := by
  intro d hd
  cases hd
  exact h

variable {rest : List Char}

theorem scanFrom_word (h : EndsToken rest) (letters : List Char) :
    scanFrom (.word letters) rest = ofWord letters.reverse :: scanFrom .ready rest := by
  cases rest with
  | nil => rfl
  | cons c rest =>
    simp only [scanFrom, step, (h c rfl).1, Bool.false_eq_true, if_false, List.cons_append]

theorem scanFrom_number (h : EndsToken rest) (characters : List Char) :
    scanFrom (.number characters) rest =
      ofNumber characters.reverse :: scanFrom .ready rest := by
  cases rest with
  | nil => rfl
  | cons c rest =>
    simp only [scanFrom, step, (h c rfl).2, Bool.false_eq_true, if_false, List.cons_append]

/-- Characters of a number continue it. -/
theorem scanFrom_number_append (characters : List Char) {more : List Char}
    (hmore : ∀ c ∈ more, isNumberCharacter c = true) :
    scanFrom (.number characters) (more ++ rest) =
      scanFrom (.number (more.reverse ++ characters)) rest := by
  induction more generalizing characters with
  | nil => rfl
  | cons c more ih =>
    obtain ⟨hc, hmore⟩ := List.forall_mem_cons.mp hmore
    rw [List.cons_append, scanFrom, step, if_pos hc, List.nil_append, ih _ hmore,
      List.reverse_cons, List.append_assoc, List.singleton_append]

/-- A digit or a sign begins a number. -/
theorem stepReady_of_number {c : Char} (h : (c.isDigit || c == '-') = true) :
    stepReady c = (.number [c], []) := by
  have hne : ∀ d : Char, (d.isDigit || d == '-') = false → c ≠ d := by
    rintro d hd rfl
    rw [h] at hd
    cases hd
  simp [stepReady, isSpace, hne, h]

theorem isNumberCharacter_of_isDigit {c : Char} (h : c.isDigit = true) :
    isNumberCharacter c = true := by
  simp [isNumberCharacter, h]

theorem isNumberCharacter_of_mem_signText {negative : Bool} {c : Char}
    (h : c ∈ (Numeral.signText negative).toList) : isNumberCharacter c = true := by
  cases negative with
  | true =>
    rw [List.mem_singleton.mp h]
    rfl
  | false => cases h

theorem isNumberCharacter_of_mem_toString {exponent : Int} {c : Char}
    (h : c ∈ (toString exponent).toList) : isNumberCharacter c = true := by
  have htext : toString exponent = exponent.repr := rfl
  rw [htext, Int.repr_eq_if] at h
  split at h
  · rw [Nat.repr_eq_ofList_toDigits, String.toList_ofList] at h
    exact isNumberCharacter_of_isDigit (isDigit_of_mem_toDigits h)
  · simp only [String.toList_append, Nat.repr_eq_ofList_toDigits, String.toList_ofList] at h
    rcases List.mem_append.mp h with hsign | hdigit
    · exact @isNumberCharacter_of_mem_signText true _ hsign
    · exact isNumberCharacter_of_isDigit (isDigit_of_mem_toDigits hdigit)

theorem isNumberCharacter_of_mem_text {n : Numeral} {c : Char} (h : c ∈ n.text.toList) :
    isNumberCharacter c = true := by
  have hdigits : ∀ {k : Nat}, c ∈ Nat.toDigits 10 k → isNumberCharacter c = true :=
    fun hc => isNumberCharacter_of_isDigit (isDigit_of_mem_toDigits hc)
  rw [Numeral.toList_text] at h
  cases n with
  | integer negative magnitude =>
    exact (List.mem_append.mp h).elim isNumberCharacter_of_mem_signText hdigits
  | scaled negative digits exponent =>
    rcases List.mem_append.mp h with hsign | h
    · exact isNumberCharacter_of_mem_signText hsign
    · rcases List.mem_append.mp h with hc | h
      · exact hdigits hc
      · rcases List.mem_cons.mp h with rfl | hexponent
        · rfl
        · exact isNumberCharacter_of_mem_toString hexponent

/-- A sign, if there is one, and digits begin with a digit or a sign. -/
theorem exists_signText_append_eq_cons (negative : Bool) (k : Nat) (tail : List Char) :
    ∃ c more, (Numeral.signText negative).toList ++ (Nat.toDigits 10 k ++ tail) = c :: more ∧
      (c.isDigit || c == '-') = true := by
  cases negative with
  | true => exact ⟨'-', _, rfl, rfl⟩
  | false =>
    obtain ⟨c, more, hcons, hdigit⟩ := exists_toDigits_eq_cons k
    exact ⟨c, more ++ tail, by rw [hcons]; rfl, by rw [hdigit, Bool.true_or]⟩

/-- The text of a numeral begins with a digit or a sign and goes on with characters of numbers. -/
theorem exists_text_eq_cons (n : Numeral) : ∃ c more, n.text.toList = c :: more ∧
    (c.isDigit || c == '-') = true ∧ ∀ d ∈ more, isNumberCharacter d = true := by
  have hfirst : ∃ c more, n.text.toList = c :: more ∧ (c.isDigit || c == '-') = true := by
    rw [Numeral.toList_text]
    cases n with
    | integer negative magnitude =>
      simpa using exists_signText_append_eq_cons negative magnitude []
    | scaled negative digits exponent => exact exists_signText_append_eq_cons negative digits _
  obtain ⟨c, more, hcons, hc⟩ := hfirst
  exact ⟨c, more, hcons, hc,
    fun d hd => isNumberCharacter_of_mem_text (hcons ▸ List.mem_cons_of_mem _ hd)⟩

/-- **The token of a numeral.** -/
theorem scanFrom_text (n : Numeral) (h : EndsToken rest) :
    scanFrom .ready (n.text.toList ++ rest) = .number n :: scanFrom .ready rest := by
  obtain ⟨c, more, hcons, hc, hmore⟩ := exists_text_eq_cons n
  have hread := Numeral.ofText?_text n
  rw [hcons] at hread ⊢
  rw [List.cons_append, scanFrom, step, stepReady_of_number hc, List.nil_append,
    scanFrom_number_append _ hmore, scanFrom_number h, List.reverse_append, List.reverse_reverse,
    List.reverse_singleton, List.singleton_append, ofNumber, hread]

theorem scanFrom_boolWord (b : Bool) (h : EndsToken rest) :
    scanFrom .ready (boolWord b ++ rest) = .bool b :: scanFrom .ready rest := by
  cases b with
  | true => exact scanFrom_word h ['e', 'u', 'r', 't']
  | false => exact scanFrom_word h ['e', 's', 'l', 'a', 'f']

theorem scanFrom_null (h : EndsToken rest) :
    scanFrom .ready (['n', 'u', 'l', 'l'] ++ rest) = .null :: scanFrom .ready rest :=
  scanFrom_word h ['l', 'l', 'u', 'n']

theorem scanFrom_newLine (level : Nat) (rest : List Char) :
    scanFrom .ready (newLine level ++ rest) = scanFrom .ready rest := by
  have hspaces : ∀ n, scanFrom .ready (List.replicate n ' ' ++ rest) = scanFrom .ready rest := by
    intro n
    induction n with
    | zero => rfl
    | succ n ih => exact ih
  exact hspaces _

/-! ### Texts -/

theorem hexValue?_hexDigit : ∀ n < 16, hexValue? (hexDigit n) = some n := by decide

/-- A character behind a backslash. -/
theorem scanFrom_escaped {c d : Char} (hd : d ≠ 'u') (h : escaped? d = some c)
    (pieces : List Piece) (rest : List Char) :
    scanFrom (.text pieces) (['\\', d] ++ rest) = scanFrom (.text (.plain c :: pieces)) rest := by
  have hescape : ∀ l, scanFrom (.text pieces) ('\\' :: l) = scanFrom (.escape pieces) l :=
    fun _ => rfl
  rw [List.cons_append, hescape, List.singleton_append, scanFrom, step, if_neg hd, h]
  rfl

/-- A control character in hexadecimal digits. -/
theorem scanFrom_control {c : Char} (h : c.toNat < 32) (pieces : List Piece) (rest : List Char) :
    scanFrom (.text pieces)
        (['\\', 'u', '0', '0', hexDigit (c.toNat / 16), hexDigit (c.toNat % 16)] ++ rest) =
      scanFrom (.text (.unit c.toNat :: pieces)) rest := by
  have hopen : ∀ l, scanFrom (.text pieces) ('\\' :: 'u' :: '0' :: '0' :: l) =
      scanFrom (.unit pieces 2 0) l := fun _ => rfl
  have hdigits : 16 * (c.toNat / 16) + c.toNat % 16 = c.toNat := by omega
  simp only [List.cons_append, List.nil_append, hopen, scanFrom, step,
    hexValue?_hexDigit (c.toNat / 16) (by omega), hexValue?_hexDigit (c.toNat % 16) (by omega)]
  simp [hdigits]

/-- A character that is written as it is. -/
theorem scanFrom_plain {c : Char} (hquote : c ≠ '"') (hbackslash : c ≠ '\\') (h : ¬c.toNat < 32)
    (pieces : List Piece) (rest : List Char) :
    scanFrom (.text pieces) ([c] ++ rest) = scanFrom (.text (.plain c :: pieces)) rest := by
  rw [List.singleton_append, scanFrom, step, if_neg hquote, if_neg hbackslash, if_neg h]
  rfl

/-- A character is written so that it is read as a piece that stands for it. -/
theorem exists_piece (c : Char) : ∃ piece : Piece,
    (∀ (pieces : List Piece) (rest : List Char),
      scanFrom (.text pieces) (escape c ++ rest) = scanFrom (.text (piece :: pieces)) rest) ∧
    ∀ pieces, Piece.join? (piece :: pieces) = (Piece.join? pieces).map (c :: ·) := by
  have hescaped : ∀ d : Char, d ≠ 'u' → escaped? d = some c → ∃ piece : Piece,
      (∀ (pieces : List Piece) (rest : List Char), scanFrom (.text pieces) (['\\', d] ++ rest) =
        scanFrom (.text (piece :: pieces)) rest) ∧
      ∀ pieces, Piece.join? (piece :: pieces) = (Piece.join? pieces).map (c :: ·) :=
    fun d hd h => ⟨.plain c, scanFrom_escaped hd h, fun _ => rfl⟩
  rw [escape]
  split_ifs with hquote hbackslash hbackspace htab hline hfeed hreturn hcontrol
  · exact hescaped '"' (by decide) (by rw [hquote]; rfl)
  · exact hescaped '\\' (by decide) (by rw [hbackslash]; rfl)
  · exact hescaped 'b' (by decide) (by rw [hbackspace]; rfl)
  · exact hescaped 't' (by decide) (by rw [htab]; rfl)
  · exact hescaped 'n' (by decide) (by rw [hline]; rfl)
  · exact hescaped 'f' (by decide) (by rw [hfeed]; rfl)
  · exact hescaped 'r' (by decide) (by rw [hreturn]; rfl)
  -- The code unit of a control character is no half of a pair.
  · refine ⟨.unit c.toNat, scanFrom_control hcontrol, fun pieces => ?_⟩
    rw [Piece.join?_unit, Char.ofNat_toNat]
    · simp only [Piece.isLeading, Bool.and_eq_false_iff, decide_eq_false_iff_not]
      omega
    · simp only [Piece.isTrailing, Bool.and_eq_false_iff, decide_eq_false_iff_not]
      omega
  · exact ⟨.plain c, scanFrom_plain hquote hbackslash hcontrol, fun _ => rfl⟩

/-- The characters of a text are read as pieces that stand for them. -/
theorem exists_pieces (l : List Char) : ∃ read : List Piece, Piece.join? read = some l ∧
    ∀ (pieces : List Piece) (rest : List Char), scanFrom (.text pieces) (l.flatMap escape ++ rest) =
      scanFrom (.text (read.reverse ++ pieces)) rest := by
  induction l with
  | nil => exact ⟨[], rfl, fun _ _ => rfl⟩
  | cons c l ih =>
    obtain ⟨piece, hscan, hjoin⟩ := exists_piece c
    obtain ⟨read, hread, hscans⟩ := ih
    refine ⟨piece :: read, by rw [hjoin, hread, Option.map_some], fun pieces rest => ?_⟩
    rw [List.flatMap_cons, List.append_assoc, hscan, hscans, List.reverse_cons, List.append_assoc,
      List.singleton_append]

/-- **The token of a text.** -/
theorem scanFrom_literal (s : Option String) (rest : List Char) :
    scanFrom .ready (literal s ++ rest) = .string s :: scanFrom .ready rest := by
  cases s with
  | none => rfl
  | some s =>
    obtain ⟨read, hread, hscan⟩ := exists_pieces s.toList
    have hopen : ∀ l, scanFrom .ready ('"' :: l) = scanFrom (.text []) l := fun _ => rfl
    have hclose : ∀ pieces l, scanFrom (.text pieces) ('"' :: l) =
        ofPieces pieces :: scanFrom .ready l := fun _ _ => rfl
    rw [literal, List.cons_append, List.cons_append, hopen, List.append_assoc, hscan,
      List.singleton_append, hclose, List.append_nil, ofPieces, List.reverse_reverse, hread,
      Option.map_some, String.ofList_toList]

end Token

/-! ### Values -/

mutual

/-- The tokens of a value. -/
def tokens : Json → List Token
  | null => [.null]
  | bool b => [.bool b]
  | number n => [.number n]
  | string s => [.string s]
  | array [] => [.openBracket, .closeBracket]
  | array (item :: items) => .openBracket :: (tokens item ++ itemTokens items)
  | object [] => [.openBrace, .closeBrace]
  | object ((name, value) :: fields) =>
    .openBrace :: .string name :: .colon :: (tokens value ++ fieldTokens fields)

/-- The tokens of the items after the first, and of the end of an array. -/
def itemTokens : List Json → List Token
  | [] => [.closeBracket]
  | item :: items => .comma :: (tokens item ++ itemTokens items)

/-- The tokens of the fields after the first, and of the end of an object. -/
def fieldTokens : List (Option String × Json) → List Token
  | [] => [.closeBrace]
  | (name, value) :: fields =>
    .comma :: .string name :: .colon :: (tokens value ++ fieldTokens fields)

end

section

open Token

theorem scanFrom_comma (rest : List Char) :
    scanFrom .ready (',' :: rest) = .comma :: scanFrom .ready rest := rfl

theorem scanFrom_colon (rest : List Char) :
    scanFrom .ready (':' :: ' ' :: rest) = .colon :: scanFrom .ready rest := rfl

theorem endsToken_prettyItems (level : Nat) (items : List Json) (rest : List Char) :
    EndsToken (prettyItems level items ++ rest) := by
  cases items <;> exact endsToken_cons _ ⟨rfl, rfl⟩

theorem endsToken_prettyFields (level : Nat) (fields : List (Option String × Json))
    (rest : List Char) : EndsToken (prettyFields level fields ++ rest) := by
  cases fields with
  | nil => exact endsToken_cons _ ⟨rfl, rfl⟩
  | cons field fields => exact endsToken_cons _ ⟨rfl, rfl⟩

mutual

/-- **The tokens of a value on many lines.** -/
theorem scanFrom_prettyChars (level : Nat) : ∀ (value : Json) {rest : List Char}, EndsToken rest →
    scanFrom .ready (prettyChars level value ++ rest) = tokens value ++ scanFrom .ready rest
  | null, _, h => scanFrom_null h
  | bool b, _, h => scanFrom_boolWord b h
  | number n, _, h => scanFrom_text n h
  | string s, rest, _ => scanFrom_literal s rest
  | array [], _, _ => rfl
  | array (item :: items), rest, _ => by
    have hopen : ∀ l, scanFrom .ready ('[' :: l) = .openBracket :: scanFrom .ready l := fun _ => rfl
    simp only [prettyChars, tokens, List.cons_append, List.append_assoc]
    rw [hopen, scanFrom_newLine,
      scanFrom_prettyChars (level + 1) item (endsToken_prettyItems level items rest),
      scanFrom_prettyItems level items rest]
  | object [], _, _ => rfl
  | object ((name, value) :: fields), rest, _ => by
    have hopen : ∀ l, scanFrom .ready ('\x7b' :: l) = .openBrace :: scanFrom .ready l :=
      fun _ => rfl
    simp only [prettyChars, tokens, List.cons_append, List.append_assoc]
    rw [hopen, scanFrom_newLine, scanFrom_literal, scanFrom_colon,
      scanFrom_prettyChars (level + 1) value (endsToken_prettyFields level fields rest),
      scanFrom_prettyFields level fields rest]

/-- The tokens of the items after the first. -/
theorem scanFrom_prettyItems (level : Nat) : ∀ (items : List Json) (rest : List Char),
    scanFrom .ready (prettyItems level items ++ rest) = itemTokens items ++ scanFrom .ready rest
  | [], rest => by
    have hclose : scanFrom .ready (']' :: rest) = .closeBracket :: scanFrom .ready rest := rfl
    rw [prettyItems, List.append_assoc, scanFrom_newLine, List.singleton_append, hclose]
    rfl
  | item :: items, rest => by
    simp only [prettyItems, itemTokens, List.cons_append, List.append_assoc]
    rw [scanFrom_comma, scanFrom_newLine,
      scanFrom_prettyChars (level + 1) item (endsToken_prettyItems level items rest),
      scanFrom_prettyItems level items rest]

/-- The tokens of the fields after the first. -/
theorem scanFrom_prettyFields (level : Nat) :
    ∀ (fields : List (Option String × Json)) (rest : List Char),
    scanFrom .ready (prettyFields level fields ++ rest) = fieldTokens fields ++ scanFrom .ready rest
  | [], rest => by
    have hclose : scanFrom .ready ('\x7d' :: rest) = .closeBrace :: scanFrom .ready rest := rfl
    rw [prettyFields, List.append_assoc, scanFrom_newLine, List.singleton_append, hclose]
    rfl
  | (name, value) :: fields, rest => by
    simp only [prettyFields, fieldTokens, List.cons_append, List.append_assoc]
    rw [scanFrom_comma, scanFrom_newLine, scanFrom_literal, scanFrom_colon,
      scanFrom_prettyChars (level + 1) value (endsToken_prettyFields level fields rest),
      scanFrom_prettyFields level fields rest]

end

end

/-- **The tokens of a written value.** -/
theorem scan_pretty (value : Json) : Token.scan value.pretty = tokens value := by
  have hscan := scanFrom_prettyChars 0 value Token.endsToken_nil
  rw [List.append_nil] at hscan
  rw [Token.scan, pretty, String.toList_ofList, hscan]
  exact List.append_nil _

end GraphGrammar.Json
