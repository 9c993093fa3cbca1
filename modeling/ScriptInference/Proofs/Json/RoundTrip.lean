import ScriptInference.Json.Parser
import ScriptInference.Json.Printer
import ScriptInference.Proofs.Number.Numerals

/-!
# Written JSON is read back

Each reader takes exactly the written form of its value off the front of a text, whatever follows,
as long as what follows does not continue a number. A value whose strings denote texts and whose
numerals are spelled as the grammar asks is therefore the value that its text is parsed to.
-/

namespace ScriptInference.Json
variable {cs rest : List Char} {n : Numeral} {c : Char} {j : Json}

open Numeral

/-! ### Strings -/

theorem hexValue?_hexDigit {n : Nat} (h : n < 16) : hexValue? (hexDigit n) = some n := by
  revert n
  decide

/-- The three ways to write a character: a short escape, an escape of four hexadecimal digits,
itself. -/
theorem escapeChar_cases (c : Char) :
    (∃ e, escapeChar c = ['\\', e] ∧ e ≠ 'u' ∧ simpleEscape? e = some c) ∨
      (escapeChar c = ['\\', 'u', '0', '0', hexDigit (c.toNat / 16), hexDigit (c.toNat % 16)] ∧
        c.toNat < 0x20) ∨
      (escapeChar c = [c] ∧ c ≠ '"' ∧ c ≠ '\\' ∧ ¬ c.toNat < 0x20) := by
  unfold escapeChar
  split_ifs with quotation backslash backspace feed line carriage tab control
  · exact .inl ⟨_, rfl, by decide, by rw [quotation]; rfl⟩
  · exact .inl ⟨_, rfl, by decide, by rw [backslash]; rfl⟩
  · exact .inl ⟨_, rfl, by decide, by rw [backspace]; rfl⟩
  · exact .inl ⟨_, rfl, by decide, by rw [feed]; rfl⟩
  · exact .inl ⟨_, rfl, by decide, by rw [line]; rfl⟩
  · exact .inl ⟨_, rfl, by decide, by rw [carriage]; rfl⟩
  · exact .inl ⟨_, rfl, by decide, by rw [tab]; rfl⟩
  · exact .inr (.inl ⟨rfl, control⟩)
  · exact .inr (.inr ⟨rfl, quotation, backslash, control⟩)

/-- However a character is written, it is one unit of the token, and the unit denotes the
character. -/
theorem readUnits_escapeChar (c : Char) :
    ∃ u, (∀ cs, readUnits (escapeChar c ++ cs) = (readUnits cs).map fun r => (u :: r.1, r.2)) ∧
      ∀ us, decodeUnits (u :: us) = (decodeUnits us).map (c :: ·) := by
  rcases escapeChar_cases c with
    ⟨e, written, short, escaped⟩ | ⟨written, control⟩ | ⟨written, plain⟩
  · refine ⟨.char c, fun cs => ?_, fun us => rfl⟩
    rw [written, List.cons_append, List.singleton_append, readUnits, escaped]
    · cases readUnits cs <;> rfl
    · intro _ _ _ _ _ long
      exact absurd long short
  · refine ⟨.unit c.toNat, fun cs => ?_, fun us => ?_⟩
    · have digits : hex4? '0' '0' (hexDigit (c.toNat / 16)) (hexDigit (c.toNat % 16)) =
          some c.toNat := by
        have zero : hexValue? '0' = some 0 := rfl
        rw [hex4?, hexValue?_hexDigit (by omega), hexValue?_hexDigit (by omega), zero]
        simp
        omega
      rw [written]
      simp only [List.cons_append, List.nil_append, readUnits, digits]
      cases readUnits cs <;> rfl
    · have low : isHighSurrogate c.toNat = false ∧ isLowSurrogate c.toNat = false := by
        simp only [isHighSurrogate, isLowSurrogate, Bool.and_eq_false_iff, decide_eq_false_iff_not]
        omega
      rw [decodeUnits.eq_def]
      simp only [low, Char.ofNat_toNat, Bool.false_eq_true, if_false]
  · obtain ⟨quotation, backslash, control⟩ := plain
    refine ⟨.char c, fun cs => ?_, fun us => rfl⟩
    rw [written, List.singleton_append, readUnits, if_neg (by simp [backslash, control])]
    · cases readUnits cs <;> rfl
    · exact quotation
    all_goals
      intros
      simp_all

/-- The readers take a quoted text off the front. -/
theorem readString_quoteChars (s : String) (rest : List Char) :
    readString (s.toList.flatMap escapeChar ++ '"' :: rest) = some (some s, rest) := by
  have units : ∀ cs : List Char, ∃ us,
      readUnits (cs.flatMap escapeChar ++ '"' :: rest) = some (us, rest) ∧
      decodeUnits us = some cs := by
    intro cs
    induction cs with
    | nil => exact ⟨[], by simp [readUnits], rfl⟩
    | cons c cs ih =>
      obtain ⟨us, read, decoded⟩ := ih
      obtain ⟨u, first, denotes⟩ := readUnits_escapeChar c
      refine ⟨u :: us, ?_, ?_⟩
      · rw [List.flatMap_cons, List.append_assoc, first, read]
        rfl
      · rw [denotes, decoded]
        rfl
  obtain ⟨us, read, decoded⟩ := units s.toList
  simp [readString, read, decoded]

/-! ### Numerals -/

/-- What follows a number does not continue it. -/
def Ends (rest : List Char) : Prop :=
  ∀ c cs, rest = c :: cs → Digit.ofChar? c = none ∧ c ≠ '.' ∧ c ≠ 'e' ∧ c ≠ 'E'

theorem Ends.noDigit (h : Ends rest) : NoDigit rest := fun c cs here => (h c cs here).1

theorem ends_cons (h : Digit.ofChar? c = none ∧ c ≠ '.' ∧ c ≠ 'e' ∧ c ≠ 'E') (cs : List Char) :
    Ends (c :: cs) := by
  intro _ _ here
  cases here
  exact h

def exponentChars : Option Int → List Char
  | none => []
  | some e => 'e' :: (if e < 0 then '-' else '+') :: (Digit.ofNat e.natAbs).map Digit.toChar

def fractionChars (ds : List Digit) : List Char :=
  if ds.isEmpty then [] else '.' :: ds.map Digit.toChar

def signChars (negative : Bool) : List Char := if negative then ['-'] else []

theorem chars_append (n : Numeral) (rest : List Char) :
    n.chars ++ rest = signChars n.negative ++
      (n.whole.map Digit.toChar ++
        (fractionChars n.fraction ++ (exponentChars n.exponent ++ rest))) := by
  simp only [← List.append_assoc]
  rfl

theorem readExponent_append (e : Option Int) (h : Ends rest) :
    readExponent (exponentChars e ++ rest) = some (e, rest) := by
  cases e with
  | none =>
    cases rest with
    | nil => rfl
    | cons c cs =>
      obtain ⟨-, -, lower, upper⟩ := h c cs rfl
      rw [exponentChars, List.nil_append, readExponent.eq_def]
      split <;> simp_all
  | some e => exact readPower_append e h.noDigit

/-- What follows the digits of a numeral starts with no digit and, after the fraction, with no
point. -/
theorem head_exponentChars (e : Option Int) (h : Ends rest)
    (here : exponentChars e ++ rest = c :: cs) : Digit.ofChar? c = none ∧ c ≠ '.' := by
  cases e with
  | none => exact ⟨(h c cs here).1, (h c cs here).2.1⟩
  | some e =>
    obtain ⟨rfl, -⟩ := List.cons.inj here
    decide

theorem readFraction_append (ds : List Digit)
    (next : ∀ c cs, rest = c :: cs → Digit.ofChar? c = none ∧ c ≠ '.') :
    readFraction (fractionChars ds ++ rest) = some (ds, rest) := by
  cases ds with
  | nil =>
    rw [fractionChars, List.isEmpty_nil, if_pos rfl, List.nil_append, readFraction.eq_def]
    split
    · exact absurd rfl (next _ _ rfl).2
    · rfl
  | cons d ds => exact readDigits_append (List.cons_ne_nil d ds) fun c cs here => (next c cs here).1

theorem readWhole_append (spelled : n.Spelled)
    (next : ∀ c cs, rest = c :: cs → Digit.ofChar? c = none ∧ c ≠ '.') :
    readWhole (n.whole.map Digit.toChar ++ (fractionChars n.fraction ++ rest)) =
      some (n.whole, fractionChars n.fraction ++ rest) := by
  have digit : NoDigit (fractionChars n.fraction ++ rest) := by
    intro c cs here
    cases fraction : n.fraction with
    | nil =>
      rw [fraction] at here
      exact (next c cs here).1
    | cons d ds =>
      rw [fraction] at here
      obtain ⟨rfl, -⟩ := List.cons.inj here
      decide
  rw [readWhole, spanDigits_append _ digit]
  split
  · rename_i none
    exact absurd (congrArg Prod.fst none) spelled.whole_ne_nil
  · rename_i zero
    exact absurd (congrArg Prod.fst zero) (spelled.no_leading_zero _ _)
  · rfl

theorem readMinus_append (spelled : n.Spelled) (rest : List Char) :
    readMinus (signChars n.negative ++ (n.whole.map Digit.toChar ++ rest)) =
      (n.negative, n.whole.map Digit.toChar ++ rest) := by
  have digit : ∀ d : Digit, d.toChar ≠ '-' := by decide
  obtain ⟨d, ds, whole⟩ := List.exists_cons_of_ne_nil spelled.whole_ne_nil
  cases n.negative with
  | true => rfl
  | false =>
    rw [whole, signChars, if_neg (by decide), List.nil_append, List.map_cons, List.cons_append,
      readMinus.eq_def]
    split
    · rename_i minus
      exact absurd (List.cons.inj minus).1 (digit d)
    · rfl

/-- A spelled numeral is read back. -/
theorem readNumeral_append (spelled : n.Spelled) (h : Ends rest) :
    readNumeral (n.chars ++ rest) = some (n, rest) := by
  have next : ∀ c cs, exponentChars n.exponent ++ rest = c :: cs → Digit.ofChar? c = none ∧
      c ≠ '.' :=
    fun _ _ => head_exponentChars n.exponent h
  rw [chars_append, readNumeral]
  simp only [readMinus_append spelled, readWhole_append spelled next, readFraction_append _ next,
    readExponent_append _ h, Option.bind_eq_bind, Option.bind_some, Option.pure_def]

/-! ### Values -/

mutual

/-- Every string denotes a text, and every numeral is as demanded. -/
def Leaves (ok : Numeral → Prop) : Json → Prop
  | .null | .bool _ => True
  | .num n => ok n
  | .string s => s.isSome
  | .arr items => LeavesItems ok items
  | .obj fields => LeavesFields ok fields

def LeavesItems (ok : Numeral → Prop) : List Json → Prop
  | [] => True
  | j :: rest => Leaves ok j ∧ LeavesItems ok rest

def LeavesFields (ok : Numeral → Prop) : List (Option String × Json) → Prop
  | [] => True
  | (key, j) :: rest => key.isSome ∧ Leaves ok j ∧ LeavesFields ok rest

end

theorem skipBlanks_cons (h : isBlank c = false) (cs : List Char) :
    skipBlanks (c :: cs) = c :: cs := by
  rw [skipBlanks, List.dropWhile_cons_of_neg (by simp [h])]

/-- A written value starts with a character that is neither a blank nor a closing bracket. -/
theorem chars_eq_cons {j : Json} (leaves : j.Leaves Spelled) :
    ∃ c cs, j.chars = c :: cs ∧ isBlank c = false ∧ c ≠ ']' := by
  cases j with
  | null => exact ⟨_, _, rfl, by decide, by decide⟩
  | bool b => cases b <;> exact ⟨_, _, rfl, by decide, by decide⟩
  | num n =>
    have digit : ∀ d : Digit, isBlank d.toChar = false ∧ d.toChar ≠ ']' := by decide
    have written := chars_append n []
    rw [List.append_nil] at written
    rw [chars, written]
    obtain ⟨d, ds, whole⟩ := List.exists_cons_of_ne_nil (Spelled.whole_ne_nil leaves)
    cases n.negative with
    | true => exact ⟨_, _, rfl, by decide, by decide⟩
    | false =>
      rw [whole]
      exact ⟨_, _, rfl, digit d⟩
  | string s =>
    obtain ⟨s, rfl⟩ := Option.isSome_iff_exists.1 leaves
    exact ⟨_, _, rfl, by decide, by decide⟩
  | arr items => cases items <;> exact ⟨_, _, rfl, by decide, by decide⟩
  | obj fields =>
    rcases fields with _ | ⟨⟨key, j⟩, rest⟩ <;> exact ⟨_, _, rfl, by decide, by decide⟩

/-- The value is read off the front of every text that starts with its written form. Each item of an
array or object costs two steps of fuel and at least one character. -/
def ReadsBack (j : Json) : Prop :=
  ∀ fuel rest, 2 * j.chars.length ≤ fuel → Ends rest →
    readValue fuel (j.chars ++ rest) = some (j, rest)

theorem ReadsBack.of_step (written : j.chars = c :: cs)
    (step : ∀ fuel rest, 2 * cs.length < fuel → Ends rest → readValue (fuel + 1) (c :: (cs ++
      rest)) = some (j, rest)) : ReadsBack j := by
  intro fuel rest enough ends
  rw [written] at enough ⊢
  rw [List.length_cons] at enough
  obtain ⟨fuel, rfl⟩ : ∃ n, fuel = n + 1 := ⟨fuel - 1, by omega⟩
  exact step fuel rest (by omega) ends

/-- A value that starts with none of the other openings is a number. -/
theorem readValue_number {c : Char} (blank : isBlank c = false)
    (other : c ≠ 'n' ∧ c ≠ 't' ∧ c ≠ 'f' ∧ c ≠ '"' ∧ c ≠ '[' ∧
      c ≠ '\x7b') (fuel : Nat) (cs : List Char) :
    readValue (fuel + 1) (c :: cs) = (readNumeral (c :: cs)).map fun r => (.num r.1, r.2) := by
  rw [readValue, skipBlanks_cons blank]
  split <;> simp_all

theorem readsBack_num (spelled : n.Spelled) : ReadsBack (.num n) := by
  have digit : ∀ d : Digit, isBlank d.toChar = false ∧ d.toChar ≠ 'n' ∧ d.toChar ≠ 't' ∧
      d.toChar ≠ 'f' ∧ d.toChar ≠ '"' ∧ d.toChar ≠ '[' ∧ d.toChar ≠ '\x7b' := by decide
  obtain ⟨d, ds, whole⟩ := List.exists_cons_of_ne_nil spelled.whole_ne_nil
  have dispatch : ∀ fuel rest, readValue (fuel + 1) (n.chars ++ rest) =
      (readNumeral (n.chars ++ rest)).map fun r => (.num r.1, r.2) := by
    intro fuel rest
    rw [chars_append, whole]
    cases n.negative with
    | true => rfl
    | false => exact readValue_number (digit d).1 (digit d).2 fuel _
  intro fuel rest enough ends
  cases fuel with
  | zero =>
    have written := chars_append n []
    simp_all [chars]
  | succ fuel =>
    rw [chars, dispatch, readNumeral_append spelled ends]
    rfl

theorem readsBack_string (s : String) : ReadsBack (.str s) := by
  have written : (Json.str s).chars = '"' :: (s.toList.flatMap escapeChar ++ ['"']) := rfl
  apply ReadsBack.of_step written
  intro fuel rest _ _
  calc readValue (fuel + 1) ('"' :: (s.toList.flatMap escapeChar ++ ['"'] ++ rest))
      = (readString (s.toList.flatMap escapeChar ++ '"' :: rest)).map fun r =>
      (.string r.1, r.2) := by
        rw [List.append_assoc]
        rfl
    _ = some (.str s, rest) := by rw [readString_quoteChars]; rfl

/-- An array that is not empty is read item by item. -/
theorem readValue_arr {j : Json} (leaves : j.Leaves Spelled) (fuel : Nat) (rest : List Char) :
    readValue (fuel + 1) ('[' :: (j.chars ++ rest)) =
      (readItems fuel (j.chars ++ rest)).map fun r => (.arr r.1, r.2) := by
  obtain ⟨c, cs, written, blank, close⟩ := chars_eq_cons leaves
  rw [written, List.cons_append]
  simp only [readValue, skipBlanks_cons (c := '[') (by decide), skipBlanks_cons blank]
  split
  · rename_i closed
    exact absurd (List.cons.inj closed).1 close
  · rfl

theorem ends_itemChars (items : List Json) (rest : List Char) : Ends (itemChars items ++ rest) := by
  cases items <;> exact ends_cons (by decide) _

theorem ends_fieldChars (fields : List (Option String × Json)) (rest : List Char) :
    Ends (fieldChars fields ++ rest) := by
  rcases fields with _ | ⟨⟨key, j⟩, fields⟩ <;> exact ends_cons (by decide) _

/-- A field is its key, a colon and its value; behind it the object ends, or another field
follows. -/
theorem readFields_field (key : String) {fuel : Nat}
    (value : readValue fuel (j.chars ++ rest) = some (j, rest)) :
    (∀ cs, rest = '\x7d' :: cs →
      readFields (fuel + 1) (stringChars (some key) ++ ':' :: (j.chars ++ rest)) =
      some ([(some key, j)], cs)) ∧
    (∀ cs, rest = ',' :: cs →
      readFields (fuel + 1) (stringChars (some key) ++ ':' :: (j.chars ++ rest)) =
      (readFields fuel cs).map fun r => ((some key, j) :: r.1, r.2)) := by
  have quoted : stringChars (some key) ++ ':' :: (j.chars ++ rest) =
      '"' :: (key.toList.flatMap escapeChar ++ '"' :: ':' :: (j.chars ++ rest)) := by
    simp [stringChars, quoteChars]
  rw [quoted, readFields, skipBlanks_cons (by decide)]
  simp only [readString_quoteChars, skipBlanks_cons (c := ':') (by decide), value]
  constructor
  · rintro cs rfl
    simp only [skipBlanks_cons (c := '\x7d') (by decide)]
  · rintro cs rfl
    simp only [skipBlanks_cons (c := ',') (by decide)]

mutual

theorem readsBack : ∀ {j : Json}, j.Leaves Spelled → ReadsBack j
  | .null, _ => .of_step rfl fun _ _ _ _ => rfl
  | .bool true, _ => .of_step rfl fun _ _ _ _ => rfl
  | .bool false, _ => .of_step rfl fun _ _ _ _ => rfl
  | .num _, spelled => readsBack_num spelled
  | .string (some s), _ => readsBack_string s
  | .arr [], _ => .of_step rfl fun _ _ _ _ => rfl
  | .arr (j :: items), ⟨first, others⟩ => by
    apply ReadsBack.of_step rfl
    intro fuel rest enough _
    rw [List.append_assoc, readValue_arr first, readItems_append others (readsBack first) enough]
    rfl
  | .obj [], _ => .of_step rfl fun _ _ _ _ => rfl
  | .obj ((some key, j) :: fields), ⟨_, first, others⟩ => by
    apply ReadsBack.of_step rfl
    intro fuel rest enough _
    have read := readFields_append others (readsBack first) key enough.le rest
    rw [List.append_assoc, List.cons_append, List.append_assoc]
    calc readValue (fuel + 1) ('\x7b' ::
      (stringChars (some key) ++ ':' :: (j.chars ++ (fieldChars fields ++ rest))))
        = (readFields fuel (stringChars (some key) ++
            ':' :: (j.chars ++ (fieldChars fields ++ rest)))).map fun r => (.obj r.1, r.2) := rfl
      _ = some (.obj ((some key, j) :: fields), rest) := by rw [read]; rfl

theorem readItems_append : ∀ {items : List Json}, LeavesItems Spelled items → ∀ {j : Json},
    ReadsBack j → ∀ {fuel : Nat}, 2 * (j.chars ++ itemChars items).length < fuel → ∀ rest,
    readItems fuel (j.chars ++ (itemChars items ++ rest)) = some (j :: items, rest)
  | [], _, j, first, fuel + 1, enough, rest => by
    rw [readItems, first fuel _ (by simp at enough; omega) (ends_itemChars [] rest)]
    rfl
  | next :: items, ⟨leaves, others⟩, j, first, fuel + 1, enough, rest => by
    rw [readItems, first fuel _ (by simp at enough; omega) (ends_itemChars (next :: items) rest)]
    have fits : 2 * (next.chars ++ itemChars items).length < fuel := by
      simp [itemChars] at enough ⊢
      omega
    have read := readItems_append others (readsBack leaves) fits rest
    calc (readItems fuel (next.chars ++ itemChars items ++ rest)).map (fun r => (j :: r.1, r.2))
        = some (j :: next :: items, rest) := by rw [List.append_assoc, read]; rfl

theorem readFields_append : ∀ {fields : List (Option String × Json)}, LeavesFields Spelled fields →
    ∀ {j : Json}, ReadsBack j → ∀ (key : String) {fuel : Nat},
    2 * (stringChars (some key) ++ ':' :: (j.chars ++ fieldChars fields)).length ≤ fuel → ∀ rest,
    readFields fuel (stringChars (some key) ++ ':' :: (j.chars ++ (fieldChars fields ++ rest))) =
      some ((some key, j) :: fields, rest)
  | [], _, j, first, key, fuel + 1, enough, rest => by
    exact (readFields_field key
      (first fuel _ (by simp at enough; omega) (ends_fieldChars [] rest))).1 rest rfl
  | (some next, k) :: fields, ⟨_, leaves, others⟩, j, first, key, fuel + 1, enough, rest => by
    have value :=
      first fuel _ (by simp at enough; omega) (ends_fieldChars ((some next, k) :: fields) rest)
    have fits : 2 * (stringChars (some next) ++ ':' :: (k.chars ++ fieldChars fields)).length ≤
        fuel := by
      simp [fieldChars] at enough ⊢
      omega
    have read := readFields_append others (readsBack leaves) next fits rest
    have comma : fieldChars ((some next, k) :: fields) ++ rest =
        ',' :: (stringChars (some next) ++ ':' :: (k.chars ++ (fieldChars fields ++ rest))) := by
      simp [fieldChars]
    rw [(readFields_field key value).2 _ comma, read, Option.map_some]
  | (none, _) :: _, ⟨missing, _⟩, _, _, _, _, _, _ => by simp at missing
  | [], _, j, first, key, 0, enough, rest | _ :: _, _, j, first, key, 0, enough, rest =>
    by simp at enough

end

/-- **Round trip.** A value is what its text is parsed to. -/
theorem parse?_text (leaves : j.Leaves Spelled) : parse? j.text = some j := by
  have ends : Ends [] := by
    intro c cs here
    cases here
  have read := readsBack leaves (2 * j.chars.length + 2) [] (by omega) ends
  rw [List.append_nil] at read
  simp [parse?, text, parseChars?, read, skipBlanks]

/-- Values with one text are one value. -/
theorem text_inj {i : Json} (hi : i.Leaves Spelled) (hj : j.Leaves Spelled) :
    i.text = j.text ↔ i = j := by
  refine ⟨fun same => ?_, congrArg text⟩
  have read := parse?_text hi
  rw [same, parse?_text hj] at read
  exact (Option.some.inj read).symm

section Leaves
variable {ok : Numeral → Prop}

theorem leaves_str (s : String) : (str s).Leaves ok := rfl

theorem leaves_arr {items : List Json} : (Json.arr items).Leaves ok ↔ ∀ j ∈ items, j.Leaves ok := by
  rw [Leaves]
  induction items with
  | nil => simp [LeavesItems]
  | cons j items ih => simp [LeavesItems, ih]

theorem leaves_object {fields : List (String × Json)} :
    (object fields).Leaves ok ↔ ∀ f ∈ fields, f.2.Leaves ok := by
  rw [object, Leaves]
  induction fields with
  | nil => simp [LeavesFields]
  | cons f fields ih => simp [LeavesFields, ih]

end Leaves

end ScriptInference.Json
