/-
# The tokens of a written value

The text of a value falls into the value's tokens again, whatever the value and
whatever follows it, as long as what follows cannot go on with a number
(`scan_writeOnto`). What takes work is inside of the tokens: the digits of a
number make up its value (`scan_digits`), and of a string every character comes
back, however it was escaped (`scan_escaped`).

Key definitions: `Json.Lexer.scan`, `Json.Ends`, `Json.tokens`.
Key theorems: `Json.scan_int`, `Json.scan_quote`, `Json.scan_writeOnto`,
`Json.tokens_text`.
-/
import FencedLog.Json.Printer
import FencedLog.Json.Token

namespace FencedLog
namespace Json

variable {ts : List Token} {rest : List Char}

/-- The tokens of the characters that are still to be read. -/
def Lexer.scan (s : Lexer) (cs : List Char) : Option (List Token) := (s.run cs).bind Lexer.finish

open Lexer (scan)

theorem scan_cons {s t : Lexer} {c : Char} (h : s.step c = some t) (rest : List Char) :
    s.scan (c :: rest) = t.scan rest := by
  unfold scan
  rw [Lexer.run, h]

/-- What follows cannot go on with a number: it is the end, or a mark. -/
def Ends (rest : List Char) : Prop := ∀ c ∈ rest.head?, isMark c = true

theorem ends_nil : Ends [] := fun _ h => nomatch h

theorem ends_cons {c : Char} (h : isMark c = true) (rest : List Char) : Ends (c :: rest) :=
  fun _ hd => Option.some.inj hd ▸ h

theorem isMark_iff {c : Char} : isMark c = true ↔
    c = '\x7b' ∨ c = '\x7d' ∨ c = '[' ∨ c = ']' ∨ c = ':' ∨ c = ',' := by
  simp [isMark, or_assoc]

theorem scan_mark {c : Char} (h : isMark c = true) (rest : List Char) :
    scan ⟨.between, ts⟩ (c :: rest) = scan ⟨.between, .mark c :: ts⟩ rest := by
  refine scan_cons ?_ rest
  rcases isMark_iff.mp h with rfl | rfl | rfl | rfl | rfl | rfl <;> rfl

/-! ### Words -/

theorem scan_word (v : Json) : ∀ (c : Char) (left : List Char),
    scan ⟨.word (c :: left) v, ts⟩ (c :: left ++ rest) = scan ⟨.between, .atom v :: ts⟩ rest
  | c, [] => scan_cons (by simp [Lexer.step]) rest
  | c, d :: left => by
    rw [List.cons_append, scan_cons (t := ⟨.word (d :: left) v, ts⟩) (by simp [Lexer.step])]
    exact scan_word v d left

/-! ### Numbers -/

theorem digit?_digitChar {d : Nat} (h : d < 10) : Text.digit? d.digitChar = some d := by
  have hall : ∀ d : Fin 10, Text.digit? d.val.digitChar = some d.val := by decide
  exact hall ⟨d, h⟩

theorem extend?_mark {c : Char} (h : isMark c = true) (value : Nat) (stage : Stage) :
    extend? value stage c = none := by
  rcases isMark_iff.mp h with rfl | rfl | rfl | rfl | rfl | rfl <;> cases stage <;> rfl

/-- A number ends where nothing can go on with it. -/
theorem scan_ended {negative : Bool} {value : Nat} {stage : Stage} {v : Json}
    (hv : ofNumber? negative value stage = some v) (hr : Ends rest) :
    scan ⟨.number negative value stage, ts⟩ rest = scan ⟨.between, .atom v :: ts⟩ rest := by
  cases rest with
  | nil => simp [scan, Lexer.run, Lexer.finish, hv]
  | cons c rest =>
    have hstep : Lexer.step ⟨.number negative value stage, ts⟩ c =
        Lexer.step ⟨.between, .atom v :: ts⟩ c := by
      simp only [Lexer.step, extend?_mark (hr c rfl), hv, Option.bind_some]
    unfold scan
    rw [Lexer.run, Lexer.run, hstep]

/-- The digits of a positive number make up its value, from where the first one
is taken as such. -/
theorem scan_digits {s : Lexer} {negative : Bool}
    (hs : ∀ d, 0 < d → d < 10 → s.step d.digitChar = some ⟨.number negative d .whole, ts⟩)
    (n : Nat) : 0 < n → ∀ rest, s.scan (Nat.toDigits 10 n ++ rest) =
      scan ⟨.number negative n .whole, ts⟩ rest := by
  induction n using Nat.strongRecOn with
  | ind n ih =>
    intro hn rest
    by_cases hlt : n < 10
    · rw [Nat.toDigits_of_lt_base hlt]
      exact scan_cons (hs n hn hlt) rest
    · have hle : 10 ≤ n := Nat.le_of_not_lt hlt
      have hmod : n % 10 < 10 := Nat.mod_lt n (by decide)
      rw [Nat.toDigits_of_base_le (by decide) hle, List.append_assoc,
        ih (n / 10) (by omega) (by omega), List.singleton_append]
      refine scan_cons ?_ rest
      simp only [Lexer.step, extend?, digit?_digitChar hmod, Nat.div_add_mod']

theorem scan_natural {s : Lexer} {negative : Bool} {n : Nat} {v : Json}
    (hs : ∀ d, 0 < d → d < 10 → s.step d.digitChar = some ⟨.number negative d .whole, ts⟩)
    (hn : 0 < n) (hv : ofNumber? negative n .whole = some v) (hr : Ends rest) :
    s.scan ((Nat.repr n).toList ++ rest) = scan ⟨.between, .atom v :: ts⟩ rest := by
  rw [Nat.toList_repr, scan_digits hs n hn]
  exact scan_ended hv hr

/-- After a minus sign, or as the first character, a digit begins a number. -/
theorem step_digit (negative : Bool) {d : Nat} (h0 : 0 < d) (h : d < 10) :
    Lexer.step ⟨.number negative 0 .minus, ts⟩ d.digitChar =
        some ⟨.number negative d .whole, ts⟩ ∧
      Lexer.step ⟨.between, ts⟩ d.digitChar = some ⟨.number false d .whole, ts⟩ := by
  have hd : d = 1 ∨ d = 2 ∨ d = 3 ∨ d = 4 ∨ d = 5 ∨ d = 6 ∨ d = 7 ∨ d = 8 ∨ d = 9 := by omega
  rcases hd with rfl | rfl | rfl | rfl | rfl | rfl | rfl | rfl | rfl <;> exact ⟨rfl, rfl⟩

theorem scan_int (n : Int) (hr : Ends rest) :
    scan ⟨.between, ts⟩ ((toString n).toList ++ rest) =
      scan ⟨.between, .atom (int n) :: ts⟩ rest := by
  cases n with
  | ofNat n =>
    show scan _ ((Nat.repr n).toList ++ rest) = _
    rcases Nat.eq_zero_or_pos n with rfl | hn
    · rw [Nat.toList_repr, Nat.toDigits_zero]
      exact (scan_cons rfl rest).trans (scan_ended rfl hr)
    · exact scan_natural (fun d h0 h => (step_digit false h0 h).2) hn rfl hr
  | negSucc n =>
    show scan _ (("-" ++ Nat.repr (n + 1)).toList ++ rest) = _
    rw [String.toList_append, List.append_assoc]
    refine (scan_cons rfl _).trans ?_
    exact scan_natural (fun d h0 h => (step_digit true h0 h).1) n.succ_pos rfl hr

/-! ### Strings -/

theorem hexDigit?_hexDigit (n : Nat) : hexDigit? (hexDigit n) = some (n % 16) := by
  have hall : ∀ d : Fin 16, hexDigit? (("0123456789abcdef".toList).getD d.val '0') = some d.val := by
    decide
  exact hall ⟨n % 16, Nat.mod_lt n (by decide)⟩

theorem scan_control {c : Char} (h : c.toNat < 0x20) (points : List Nat) (rest : List Char) :
    scan ⟨.text points, ts⟩
        ('\\' :: 'u' :: '0' :: '0' :: hexDigit (c.toNat / 16) :: hexDigit c.toNat :: rest) =
      scan ⟨.text (c.toNat :: points), ts⟩ rest := by
  have hhigh : Lexer.step ⟨.hex points 0 2, ts⟩ (hexDigit (c.toNat / 16)) =
      some ⟨.hex points (c.toNat / 16) 1, ts⟩ := by
    have hmod : c.toNat / 16 % 16 = c.toNat / 16 := by omega
    simp [Lexer.step, hexDigit?_hexDigit, hmod]
  have hlow : Lexer.step ⟨.hex points (c.toNat / 16) 1, ts⟩ (hexDigit c.toNat) =
      some ⟨.text (c.toNat :: points), ts⟩ := by
    simp [Lexer.step, hexDigit?_hexDigit, Nat.div_add_mod']
  calc scan ⟨.text points, ts⟩
        ('\\' :: 'u' :: '0' :: '0' :: hexDigit (c.toNat / 16) :: hexDigit c.toNat :: rest)
      = scan ⟨.hex points 0 4, ts⟩
          ('0' :: '0' :: hexDigit (c.toNat / 16) :: hexDigit c.toNat :: rest) :=
        (scan_cons rfl _).trans (scan_cons rfl _)
    _ = scan ⟨.hex points 0 2, ts⟩ (hexDigit (c.toNat / 16) :: hexDigit c.toNat :: rest) :=
        (scan_cons rfl _).trans (scan_cons rfl _)
    _ = scan ⟨.text (c.toNat :: points), ts⟩ rest :=
        (scan_cons hhigh _).trans (scan_cons hlow _)

/-- A character comes back from its written form. -/
theorem scan_escaped (c : Char) (points : List Nat) (rest : List Char) :
    scan ⟨.text points, ts⟩ (escaped c ++ rest) = scan ⟨.text (c.toNat :: points), ts⟩ rest := by
  -- a character with a short escape is one of seven
  have short : ∀ {d e : Char}, (c == d) = true →
      Lexer.step ⟨.escape points, ts⟩ e = some ⟨.text (d.toNat :: points), ts⟩ →
        scan ⟨.text points, ts⟩ (['\\', e] ++ rest) =
          scan ⟨.text (c.toNat :: points), ts⟩ rest := by
    intro d e hc he
    rw [eq_of_beq hc]
    exact (scan_cons rfl _).trans (scan_cons he rest)
  unfold escaped
  split
  · exact short ‹_› rfl
  · rename_i hquote
    split
    · exact short ‹_› rfl
    · rename_i hslash
      split
      · exact short ‹_› rfl
      split
      · exact short ‹_› rfl
      split
      · exact short ‹_› rfl
      split
      · exact short ‹_› rfl
      split
      · exact short ‹_› rfl
      split
      · exact scan_control ‹_› points rest
      · rename_i hplain
        exact scan_cons (by simp [Lexer.step, hquote, hslash, hplain]) rest

theorem scan_chars (rest : List Char) : ∀ (cs : List Char) (points : List Nat),
    scan ⟨.text points, ts⟩ (cs.foldr (fun c rest => escaped c ++ rest) rest) =
      scan ⟨.text ((cs.map Char.toNat).reverse ++ points), ts⟩ rest
  | [], _ => rfl
  | c :: cs, points => by
    rw [List.foldr_cons, scan_escaped, scan_chars rest cs, List.map_cons, List.reverse_cons,
      List.append_assoc, List.singleton_append]

/-- A character is no half of a surrogate pair. -/
theorem not_isHalf (c : Char) : isHighHalf c.toNat = false ∧ isLowHalf c.toNat = false := by
  have hvalid : c.toNat < 0xD800 ∨ (0xDFFF < c.toNat ∧ c.toNat < 0x110000) := c.valid
  constructor
  · rw [isHighHalf, Bool.and_eq_false_iff, decide_eq_false_iff_not, decide_eq_false_iff_not]
    omega
  · rw [isLowHalf, Bool.and_eq_false_iff, decide_eq_false_iff_not, decide_eq_false_iff_not]
    omega

theorem assemble_toNat : ∀ cs : List Char, assemble (cs.map Char.toNat) = some cs
  | [] => rfl
  | [c] => by simp [assemble, not_isHalf c, Char.ofNat_toNat]
  | c :: d :: cs => by
    have ih := assemble_toNat (d :: cs)
    rw [List.map_cons] at ih
    simp [assemble, not_isHalf c, Char.ofNat_toNat, ih]

theorem ofPoints_toList (s : String) : ofPoints (s.toList.map Char.toNat).reverse = str s := by
  rw [ofPoints, List.reverse_reverse, assemble_toNat]
  exact congrArg str String.ofList_toList

theorem scan_quote (s : String) (rest : List Char) :
    scan ⟨.between, ts⟩ (quoteOnto s rest) = scan ⟨.between, .atom (str s) :: ts⟩ rest := by
  rw [quoteOnto, scan_cons (t := ⟨.text [], ts⟩) rfl, scan_chars, List.append_nil]
  refine scan_cons ?_ rest
  rw [← ofPoints_toList s]
  rfl

/-- The value that stands for a key. -/
def ofKey : Option String → Json
  | some s => str s
  | none => torn

theorem scan_key (k : Option String) (rest : List Char) :
    scan ⟨.between, ts⟩ (keyOnto k rest) = scan ⟨.between, .atom (ofKey k) :: ts⟩ rest := by
  cases k with
  | some s => exact scan_quote s rest
  | none =>
    unfold scan keyOnto
    rw [Lexer.run_append]
    rfl

/-! ### Values -/

mutual

/-- The tokens of a value. -/
def tokens : Json → List Token
  | .arr items => .mark '[' :: (itemTokens items ++ [.mark ']'])
  | .obj fields => .mark '\x7b' :: (fieldTokens fields ++ [.mark '\x7d'])
  | v => [.atom v]

/-- Items with commas between them. -/
def itemTokens : List Json → List Token
  | [] => []
  | [v] => tokens v
  | v :: w :: vs => tokens v ++ .mark ',' :: itemTokens (w :: vs)

/-- Fields with commas between them. -/
def fieldTokens : List (Option String × Json) → List Token
  | [] => []
  | [(k, v)] => .atom (ofKey k) :: .mark ':' :: tokens v
  | (k, v) :: f :: fs =>
    .atom (ofKey k) :: .mark ':' :: (tokens v ++ .mark ',' :: fieldTokens (f :: fs))

end

mutual

/-- **A written value falls into its tokens.** -/
theorem scan_writeOnto : ∀ (v : Json) (ts : List Token) (rest : List Char), Ends rest →
    scan ⟨.between, ts⟩ (writeOnto v rest) = scan ⟨.between, (tokens v).reverse ++ ts⟩ rest
  | .null, ts, rest, _ => (scan_cons rfl _).trans (scan_word null 'u' ['l', 'l'])
  | .bool true, ts, rest, _ => (scan_cons rfl _).trans (scan_word (bool true) 'r' ['u', 'e'])
  | .bool false, ts, rest, _ => (scan_cons rfl _).trans (scan_word (bool false) 'a' ['l', 's', 'e'])
  | .int n, ts, rest, hr => scan_int n hr
  | .real, ts, rest, hr => ((scan_cons rfl _).trans (scan_cons rfl _)).trans (scan_ended rfl hr)
  | .str s, ts, rest, _ => scan_quote s rest
  | .torn, ts, rest, _ => scan_key none rest
  | .arr items, ts, rest, _ => by
    rw [writeOnto, scan_mark (c := '[') rfl, scan_itemsOnto items _ _ (ends_cons rfl rest),
      scan_mark (c := ']') rfl]
    simp [tokens]
  | .obj fields, ts, rest, _ => by
    rw [writeOnto, scan_mark (c := '\x7b') rfl, scan_fieldsOnto fields _ _ (ends_cons rfl rest),
      scan_mark (c := '\x7d') rfl]
    simp [tokens]

theorem scan_itemsOnto : ∀ (items : List Json) (ts : List Token) (rest : List Char), Ends rest →
    scan ⟨.between, ts⟩ (itemsOnto items rest) =
      scan ⟨.between, (itemTokens items).reverse ++ ts⟩ rest
  | [], ts, rest, _ => by simp [itemsOnto, itemTokens]
  | [v], ts, rest, hr => by
    rw [itemsOnto, itemTokens]
    exact scan_writeOnto v ts rest hr
  | v :: w :: vs, ts, rest, hr => by
    rw [itemsOnto, scan_writeOnto v _ _ (ends_cons rfl _), scan_mark (c := ',') rfl,
      scan_itemsOnto (w :: vs) _ rest hr]
    simp [itemTokens]

theorem scan_fieldsOnto : ∀ (fields : List (Option String × Json)) (ts : List Token)
    (rest : List Char), Ends rest → scan ⟨.between, ts⟩ (fieldsOnto fields rest) =
      scan ⟨.between, (fieldTokens fields).reverse ++ ts⟩ rest
  | [], ts, rest, _ => by simp [fieldsOnto, fieldTokens]
  | [(k, v)], ts, rest, hr => by
    rw [fieldsOnto, scan_key, scan_mark (c := ':') rfl, scan_writeOnto v _ rest hr]
    simp [fieldTokens]
  | (k, v) :: f :: fs, ts, rest, hr => by
    rw [fieldsOnto, scan_key, scan_mark (c := ':') rfl, scan_writeOnto v _ _ (ends_cons rfl _),
      scan_mark (c := ',') rfl, scan_fieldsOnto (f :: fs) _ rest hr]
    simp [fieldTokens]

end

theorem tokens_text (v : Json) : Token.ofText? v.text = some (tokens v) := by
  unfold Token.ofText? text
  rw [String.toList_ofList]
  refine (scan_writeOnto v [] [] ends_nil).trans ?_
  simp [scan, Lexer.run, Lexer.finish]

end Json
end FencedLog
